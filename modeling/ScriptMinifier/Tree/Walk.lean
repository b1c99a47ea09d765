import ScriptMinifier.Tree.Node

namespace ScriptMinifier

/-- What a walk may change in a node. -/
structure Stamp where
  span : Span
  hoisted : Bool
deriving DecidableEq, Repr

namespace Form

variable {α β : Type}

/-- The hoisting mark, where a form has one. -/
def isHoisted : Form α → Bool
  | definitions _ _ h => h
  | declaration l | function l => l.hoisted
  | _ => false

/-- The form with its hoisting mark set to `h`, where it has one. -/
def withHoisted (h : Bool) : Form α → Form α
  | definitions k bindings _ => definitions k bindings h
  | declaration l => declaration { l with hoisted := h }
  | function l => function { l with hoisted := h }
  | form => form

@[simp] theorem children_withHoisted (h : Bool) (form : Form α) :
    (form.withHoisted h).children = form.children := by
  cases form <;> rfl

theorem map_withHoisted (f : α → β) (b : Bool) (form : Form α) :
    (form.withHoisted b).map f = (form.map f).withHoisted b := by
  cases form <;> rfl

theorem withHoisted_withHoisted (a b : Bool) (form : Form α) :
    (form.withHoisted a).withHoisted b = form.withHoisted b := by
  cases form <;> rfl

@[simp] theorem withHoisted_isHoisted (form : Form α) : form.withHoisted form.isHoisted = form := by
  cases form <;> rfl

end Form

namespace Node

def stamp (n : Node) : Stamp := ⟨n.span, n.form.isHoisted⟩

def stamped (n : Node) (s : Stamp) : Node := ⟨n.form.withHoisted s.hoisted, s.span⟩

/-- The nodes a walk visits, in order, when it goes below exactly the nodes that `descend` names. -/
def visited (descend : Node → Bool) (n : Node) : List Node :=
  n :: if descend n then n.children.attach.flatMap fun c => visited descend c.1 else []
termination_by sizeOf n
decreasing_by exact sizeOf_lt_of_mem c.2

theorem visited_eq (descend : Node → Bool) (n : Node) :
    n.visited descend = n :: if descend n then n.children.flatMap (visited descend) else [] := by
  have h := List.flatMap_map Subtype.val (visited descend) n.children.attach
  rw [List.attach_map_subtype_val] at h
  rw [visited, h]

/-- Walks as `visited` does and gives every visited node a new stamp. The choice to go below a
node is made on the node as it was. -/
def amend {m : Type → Type} [Monad m] (descend : Node → Bool) (stamp : Node → m Stamp)
    (n : Node) : m Node := do
  let s ← stamp n
  let form ← if descend n then n.form.attach.mapM fun c => amend descend stamp c.1
    else pure n.form
  return (⟨form, n.span⟩ : Node).stamped s
termination_by sizeOf n
decreasing_by exact sizeOf_lt_of_mem c.2

theorem amend_eq {m : Type → Type} [Monad m] [LawfulMonad m] (descend : Node → Bool)
    (stamp : Node → m Stamp) (n : Node) :
    n.amend descend stamp = do
      let s ← stamp n
      let form ← if descend n then n.form.mapM (amend descend stamp) else pure n.form
      return (⟨form, n.span⟩ : Node).stamped s := by
  have h := Form.mapM_map (amend descend stamp) Subtype.val n.form.attach
  rw [Form.attach_map_val] at h
  rw [amend, h]

/-- A walk that only gives stamps is a map. -/
theorem run_amend (descend : Node → Bool) (stamp : Node → Stamp) (n : Node) :
    Id.run (n.amend descend fun m => pure (stamp m)) =
      (⟨if descend n then n.form.map fun c => Id.run (c.amend descend fun m => pure (stamp m))
        else n.form, n.span⟩ : Node).stamped (stamp n) := by
  rw [amend_eq]
  split
  · rw [show n.form.mapM (amend (m := Id) descend fun m => pure (stamp m)) = _ from
      Form.mapM_pure (fun c => Id.run (c.amend descend fun m => pure (stamp m))) n.form]
    rfl
  · rfl

end Node

end ScriptMinifier
