import ScriptMinifier.Tree.Walk

namespace ScriptMinifier

/-- The sum of a measure over a list. -/
def total {α : Type} (f : α → Nat) (as : List α) : Nat := as.foldr (fun a sum => f a + sum) 0

section

variable {α : Type} (f : α → Nat)

@[simp] theorem total_nil : total f [] = 0 := rfl

@[simp] theorem total_cons (a : α) (as : List α) : total f (a :: as) = f a + total f as := rfl

@[simp] theorem total_append (as bs : List α) :
    total f (as ++ bs) = total f as + total f bs := by
  induction as with
  | nil => simp
  | cons a as ih =>
    rw [List.cons_append, total_cons, total_cons, ih, Nat.add_assoc]

theorem total_attach (as : List α) : total (fun a => f a.1) as.attach = total f as :=
  List.foldr_attach (f := fun a sum => f a + sum)

end

/-- What a form adds to the weight of its children. A binding counts for four: an initializer
that becomes an assignment brings a target, the assignment itself and a comma. -/
def Form.ownWeight {α : Type} : Form α → Nat
  | .definitions _ bindings _ => 1 + 4 * bindings.length
  | _ => 1

namespace Form

variable {α β : Type}

theorem ownWeight_pos (form : Form α) : 0 < form.ownWeight := by
  cases form <;> (simp only [ownWeight]; omega)

@[simp] theorem ownWeight_withHoisted (h : Bool) (form : Form α) :
    (form.withHoisted h).ownWeight = form.ownWeight := by
  cases form <;> rfl

@[simp] theorem ownWeight_map (f : α → β) (form : Form α) :
    (form.map f).ownWeight = form.ownWeight := by
  cases form <;> simp [map, ownWeight]

end Form

namespace Node

/-- The measure by which the pass ends. Stamps do not weigh, so a marked tree weighs what the
unmarked one does. -/
def weight (n : Node) : Nat :=
  n.form.ownWeight + total (fun c => weight c.1) n.children.attach
termination_by sizeOf n
decreasing_by exact sizeOf_lt_of_mem c.2

theorem weight_eq (n : Node) :
    n.weight = n.form.ownWeight + total weight n.children := by
  rw [weight, total_attach]

/-- The weight of a list of nodes. -/
def totalWeight (ns : List Node) : Nat := total weight ns

@[simp] theorem totalWeight_nil : totalWeight [] = 0 := rfl

@[simp] theorem totalWeight_cons (n : Node) (ns : List Node) :
    totalWeight (n :: ns) = n.weight + totalWeight ns := by
  simp [totalWeight]

theorem weight_le_totalWeight {c : Node} {ns : List Node} (h : c ∈ ns) :
    c.weight ≤ totalWeight ns := by
  induction ns with
  | nil => simp at h
  | cons n ns ih =>
    rw [totalWeight_cons]
    rcases List.mem_cons.1 h with rfl | h
    · omega
    · have := ih h
      omega

theorem weight_lt_of_mem {c n : Node} (h : c ∈ n.children) : c.weight < n.weight := by
  rw [weight_eq n]
  have := n.form.ownWeight_pos
  have : c.weight ≤ total weight n.children := weight_le_totalWeight h
  omega

theorem weight_eq_totalWeight (n : Node) : n.weight = n.form.ownWeight + totalWeight n.children :=
  weight_eq n

theorem totalWeight_map {f : Node → Node} {ns : List Node} (h : ∀ n ∈ ns, (f n).weight = n.weight) :
    totalWeight (ns.map f) = totalWeight ns := by
  induction ns with
  | nil => rfl
  | cons n ns ih =>
    rw [List.map_cons, totalWeight_cons, totalWeight_cons, h n (by simp),
      ih fun m hm => h m (by simp [hm])]

@[simp] theorem weight_stamped (n : Node) (s : Stamp) : (n.stamped s).weight = n.weight := by
  simp [weight_eq_totalWeight, stamped, children]

/-- Stamps do not weigh. -/
theorem weight_amend (descend : Node → Bool) (stamp : Node → Stamp) (n : Node) :
    (Id.run (n.amend descend fun m => pure (stamp m))).weight = n.weight := by
  induction n using induct with
  | h n ih =>
    rw [run_amend, weight_stamped]
    split
    · rw [weight_eq_totalWeight, weight_eq_totalWeight n]
      simp only [children, form_mk, Form.children_map, Form.ownWeight_map]
      exact congrArg (n.form.ownWeight + ·) (totalWeight_map ih)
    · simp [weight_eq_totalWeight, children]

theorem weight_le_of_mem_visited {descend : Node → Bool} {m n : Node} (h : m ∈ n.visited descend) :
    m.weight ≤ n.weight := by
  induction n using induct with
  | h n ih =>
    rw [visited_eq] at h
    rcases List.mem_cons.1 h with rfl | h
    · omega
    · split at h
      · obtain ⟨c, hc, hm⟩ := List.mem_flatMap.1 h
        have := ih c hc hm
        have := weight_lt_of_mem hc
        omega
      · simp at h

/-- The own weights of the nodes of a walk are parts of the weight of the tree. -/
theorem ownWeight_visited_le (descend : Node → Bool) (n : Node) :
    total (fun m => m.form.ownWeight) (n.visited descend) ≤ n.weight := by
  induction n using induct with
  | h n ih =>
    rw [visited_eq, weight_eq_totalWeight]
    rw [total_cons]
    split
    · suffices h : ∀ cs : List Node, (∀ c ∈ cs, c ∈ n.children) →
          total (fun m => m.form.ownWeight) (cs.flatMap (visited descend)) ≤ totalWeight cs by
        have := h n.children fun _ h => h
        omega
      intro cs hcs
      induction cs with
      | nil => simp
      | cons c cs ihc =>
        have := ih c (hcs c (by simp))
        have := ihc fun d hd => hcs d (by simp [hd])
        rw [List.flatMap_cons, total_append, totalWeight_cons]
        omega
    · simp

end Node

end ScriptMinifier
