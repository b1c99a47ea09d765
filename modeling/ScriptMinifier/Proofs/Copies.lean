import Mathlib
import ScriptMinifier.Proofs.Reduce
import ScriptMinifier.Tree.Build

namespace ScriptMinifier

open Pass (Gives)

/-- What a node does that shows when it is done twice: to act, or to make a function. -/
inductive Deed where
  | call | construct | update | function | declaration
deriving DecidableEq, Repr

def Form.deed? {α : Type} : Form α → Option Deed
  | .call .. => some .call
  | .construct .. => some .construct
  | .update .. => some .update
  | .function _ => some .function
  | .declaration _ => some .declaration
  | _ => none

/-- A marked function declaration, which the pass takes out whole. -/
def Form.vanishes {α : Type} : Form α → Bool
  | .declaration l => l.hoisted
  | _ => false

variable {d : Deed} {s : Span}

section Total

variable {α β : Type} {f : α → Nat} {g : β → Nat}

theorem total_map (h : α → β) (as : List α) : total g (as.map h) = total (fun a => g (h a)) as := by
  induction as with
  | nil => rfl
  | cons a as ih => rw [List.map_cons, total_cons, total_cons, ih]

theorem total_filterMap (h : α → Option β) (as : List α) :
    total g (as.filterMap h) = total (fun a => total g (h a).toList) as := by
  induction as with
  | nil => rfl
  | cons a as ih =>
    rw [List.filterMap_cons, total_cons, ← ih]
    cases h a <;> simp

theorem total_toList_filter_le (p : α → Bool) (v : Option α) :
    total f (v.filter p).toList ≤ total f v.toList := by
  cases v with
  | none => exact Nat.le_refl _
  | some a =>
    rw [Option.filter_some]
    split
    · exact Nat.le_refl _
    · exact Nat.zero_le _

theorem total_le_of_forall {f' : α → Nat} {as : List α} (h : ∀ a ∈ as, f' a ≤ f a) :
    total f' as ≤ total f as := by
  induction as with
  | nil => exact Nat.le_refl _
  | cons a as ih =>
    have hhead := h a List.mem_cons_self
    have htail := ih fun b hb => h b (List.mem_cons_of_mem a hb)
    rw [total_cons, total_cons]
    omega

theorem total_le_of_forall₂ {R : α → β → Prop} (hR : ∀ a b, R a b → g b ≤ f a) {as : List α}
    {bs : List β} (h : List.Forall₂ R as bs) : total g bs ≤ total f as := by
  induction h with
  | nil => exact Nat.le_refl _
  | cons hab _ ih =>
    have hhead := hR _ _ hab
    rw [total_cons, total_cons]
    omega

theorem total_le_of_rel {R : α → β → Prop} (hR : ∀ a b, R a b → g b ≤ f a) {v : Option α}
    {w : Option β} (h : Option.Rel R v w) : total g w.toList ≤ total f v.toList := by
  cases h with
  | none => exact Nat.le_refl _
  | some hab =>
    have hhead := hR _ _ hab
    simpa using hhead

/-- What is measured along a walk is measured part by part. -/
theorem countP_flatMap_eq_total (p : β → Bool) (h : α → List β) (as : List α) :
    (as.flatMap h).countP p = total (fun a => (h a).countP p) as := by
  induction as with
  | nil => rfl
  | cons a as ih => rw [List.flatMap_cons, List.countP_append, total_cons, ih]

/-- Where each part is bounded by the part it comes from, all are. -/
theorem Form.LiftList.total_le {R : Category → α → β → Prop} {L : List α → List β → Prop}
    {as : List α} {bs : List β} (h : LiftList R L as bs) (hR : ∀ k a b, R k a b → g b ≤ f a)
    (hL : ∀ as bs, L as bs → total g bs ≤ total f as) : total g bs ≤ total f as := by
  induction h with
  | nil => exact Nat.le_refl _
  | child hab =>
    have hbound := hR _ _ _ hab
    simpa using hbound
  | list h => exact hL _ _ h
  | append _ _ ih ih' =>
    rw [total_append, total_append]
    exact Nat.add_le_add ih ih'

end Total

namespace Node

/-- How often a deed stands at a place. -/
def occurrences (d : Deed) (s : Span) (n : Node) : Nat :=
  (n.visited fun _ => true).countP fun m => m.form.deed? = some d ∧ m.span = s

/-- How often a deed stands at a place outside the functions that the pass takes out. -/
def live (d : Deed) (s : Span) (n : Node) : Nat :=
  (n.visited fun m => !m.form.vanishes).countP fun m =>
    (m.form.deed? = some d ∧ m.span = s) ∧ m.form.vanishes = false

/-- What a node itself adds to the count. -/
def own (d : Deed) (s : Span) (n : Node) : Nat :=
  if n.form.deed? = some d ∧ n.span = s then 1 else 0

theorem occurrences_eq (n : Node) :
    n.occurrences d s = n.own d s + total (occurrences d s) n.children := by
  rw [occurrences, visited_eq, List.countP_cons, if_pos rfl, countP_flatMap_eq_total, own,
    Nat.add_comm]
  simp only [decide_eq_true_eq]
  rfl

theorem live_eq (n : Node) :
    n.live d s = if n.form.vanishes then 0 else n.own d s + total (live d s) n.children := by
  rw [live, visited_eq, List.countP_cons]
  cases hv : n.form.vanishes with
  | true => simp
  | false =>
    simp only [Bool.not_false, if_true, countP_flatMap_eq_total, own, and_true,
      decide_eq_true_eq, Bool.false_eq_true, if_false]
    exact Nat.add_comm _ _

theorem occurrences_mk (form : Form Node) (span : Span) :
    (⟨form, span⟩ : Node).occurrences d s =
      (if form.deed? = some d ∧ span = s then 1 else 0) + total (occurrences d s) form.children :=
  occurrences_eq ⟨form, span⟩

theorem live_mk (form : Form Node) (span : Span) : (⟨form, span⟩ : Node).live d s =
    if form.vanishes then 0
    else (if form.deed? = some d ∧ span = s then 1 else 0) + total (live d s) form.children :=
  live_eq ⟨form, span⟩

/-- Taking functions out lets a deed stand less often. -/
theorem live_le_occurrences (n : Node) : n.live d s ≤ n.occurrences d s := by
  induction n using Node.induct with
  | h n ih =>
    have hchildren := total_le_of_forall ih
    rw [live_eq, occurrences_eq]
    split
    · exact Nat.zero_le _
    · exact Nat.add_le_add_left hchildren _

section Forms

variable {span : Span} {a b c : Node}

/-- A form that does no deed adds nothing to the count. -/
theorem occurrences_of_idle {form : Form Node} (h : form.deed? = none) :
    (⟨form, span⟩ : Node).occurrences d s = total (occurrences d s) form.children := by
  rw [occurrences_mk, h]
  simp

@[simp] theorem occurrences_unary {op : UnaryOperator} :
    (⟨.unary op a, span⟩ : Node).occurrences d s = a.occurrences d s :=
  (occurrences_of_idle rfl).trans (by simp [Form.children])

@[simp] theorem occurrences_binary {op : BinaryOperator} :
    (⟨.binary op a b, span⟩ : Node).occurrences d s = a.occurrences d s + b.occurrences d s :=
  (occurrences_of_idle rfl).trans (by simp [Form.children])

@[simp] theorem occurrences_sequence :
    (⟨.sequence a b, span⟩ : Node).occurrences d s = a.occurrences d s + b.occurrences d s :=
  (occurrences_of_idle rfl).trans (by simp [Form.children])

@[simp] theorem occurrences_conditional : (⟨.conditional c a b, span⟩ : Node).occurrences d s =
    c.occurrences d s + a.occurrences d s + b.occurrences d s :=
  (occurrences_of_idle rfl).trans (by simp [Form.children, Nat.add_assoc])

@[simp] theorem occurrences_expression :
    (⟨.expression a, span⟩ : Node).occurrences d s = a.occurrences d s :=
  (occurrences_of_idle rfl).trans (by simp [Form.children])

@[simp] theorem occurrences_exit {kind : ExitKind} :
    (⟨.exit kind (some a), span⟩ : Node).occurrences d s = a.occurrences d s :=
  (occurrences_of_idle rfl).trans (by simp [Form.children])

@[simp] theorem occurrences_empty : (⟨.empty, span⟩ : Node).occurrences d s = 0 :=
  occurrences_of_idle rfl

@[simp] theorem occurrences_block {body : List Node} :
    (⟨.block body, span⟩ : Node).occurrences d s = total (occurrences d s) body :=
  occurrences_of_idle rfl

@[simp] theorem occurrences_branch {alternative : Option Node} :
    (⟨.branch c a alternative, span⟩ : Node).occurrences d s = c.occurrences d s +
      a.occurrences d s + total (occurrences d s) alternative.toList :=
  (occurrences_of_idle rfl).trans (by simp [Form.children, Nat.add_assoc])

@[simp] theorem occurrences_toNode (v : Primitive) : (v.toNode span).occurrences d s = 0 := by
  cases v <;> exact occurrences_of_idle rfl

end Forms

theorem occurrences_negate {n m : Node} {b : Bool} (h : n.negate b = .ok m) :
    m.occurrences d s = n.occurrences d s := by
  induction n using Node.induct generalizing m with
  | h n ih =>
    obtain ⟨form, span⟩ := n
    have hnot : (not ⟨form, span⟩).occurrences d s = (⟨form, span⟩ : Node).occurrences d s :=
      occurrences_unary
    cases form with
    | sequence x y =>
      obtain ⟨y', hy, rfl⟩ := negate_sequence h
      have hsecond := ih y (by simp [children, Form.children]) hy
      simp [hsecond]
    | conditional c x y =>
      obtain ⟨x', y', hx, hy, rfl⟩ := negate_conditional h
      have hyes := ih x (by simp [children, Form.children]) hx
      have hno := ih y (by simp [children, Form.children]) hy
      simp [hyes, hno]
    | binary op x y =>
      obtain rfl | ⟨op', -, -, rfl⟩ | ⟨op', x', y', -, -, hx, hy, rfl⟩ := negate_binary h
      · exact hnot
      · simp
      · have hleft := ih x (by simp [children, Form.children]) hx
        have hright := ih y (by simp [children, Form.children]) hy
        simp [hleft, hright]
    | unary op x =>
      obtain ⟨rfl, rfl⟩ | rfl := negate_unary h
      · simp
      · exact hnot
    | _ =>
      first
        | (obtain rfl := Except.ok.inj h; exact hnot)
        | cases h

end Node

namespace Rule

variable {o : Options} {truth : Bool} {span : Span} {n m c a b body : Node}
  {alternative : Option Node}

@[simp] theorem occurrences_shortenBoolean :
    (shortenBoolean o n).occurrences d s = n.occurrences d s := by
  unfold shortenBoolean
  split
  · split
    · rw [Node.occurrences_unary, Node.occurrences_of_idle rfl, Node.occurrences_of_idle rfl]
      rfl
    · rfl
  · rfl

@[simp] theorem occurrences_truthLiteral (b : Bool) :
    (truthLiteral o b span).occurrences d s = 0 :=
  occurrences_shortenBoolean.trans (Node.occurrences_toNode (.boolean b))

theorem occurrences_folded_le : (o.folded n).occurrences d s ≤ n.occurrences d s := by
  unfold Options.folded
  split
  · simp
  · exact Nat.le_refl _

theorem Chosen.occurrences_le (h : Chosen o c a b span m) : m.occurrences d s ≤
    c.occurrences d s + a.occurrences d s + b.occurrences d s := by
  cases h with
  | known =>
    split <;> omega
  | upright => simp
  | reversed _ _ hnegate =>
    have hcondition := Node.occurrences_negate (d := d) (s := s) hnegate
    simp only [Node.occurrences_conditional]
    omega

theorem Combined.occurrences_le {op : BinaryOperator} (h : Combined o truth op a b span m) :
    m.occurrences d s ≤ a.occurrences d s + b.occurrences d s := by
  cases h with
  | decided => simp
  | right => simp
  | left => simp
  | folded =>
    have hfolded := occurrences_folded_le (o := o) (d := d) (s := s)
      (n := ⟨.binary (loosen o op a b) a b, span⟩)
    simpa using hfolded

theorem Prefixed.occurrences_le {op : UnaryOperator} (h : Prefixed o truth op a span m) :
    m.occurrences d s ≤ a.occurrences d s := by
  cases h with
  | unwrapped _ _ _ ha => simp [ha]
  | named => simp
  | folded =>
    have hfolded := occurrences_folded_le (o := o) (d := d) (s := s) (n := ⟨.unary op a, span⟩)
    simpa using hfolded

theorem Merged.occurrences_le (h : Merged o truth c body alternative span m) :
    m.occurrences d s ≤ c.occurrences d s + body.occurrences d s +
      total (Node.occurrences d s) alternative.toList := by
  cases h with
  | both hb ha hn =>
    subst hb ha
    simpa using hn.occurrences_le
  | whenTrue hb _ hn =>
    subst hb
    have hvalue := hn.occurrences_le (d := d) (s := s)
    simp only [Node.occurrences_expression]
    omega
  | whenFalse hb ha hn =>
    subst hb ha
    simpa using hn.occurrences_le
  | exits hb ha hn =>
    subst hb ha
    simpa using hn.occurrences_le
  | same => simp

theorem Branched.occurrences_le (h : Branched o truth c body alternative span m) :
    m.occurrences d s ≤ c.occurrences d s + body.occurrences d s +
      total (Node.occurrences d s) alternative.toList := by
  have helse : (alternative.getD (.empty span)).occurrences d s ≤
      total (Node.occurrences d s) alternative.toList := by
    cases alternative with
    | none => exact Nat.le_of_eq Node.occurrences_empty
    | some a => simp
  cases h with
  | known => split <;> omega
  | merged _ _ hswap hn =>
    have hmerged := hn.occurrences_le (d := d) (s := s)
    unfold swapNegated at hswap
    split at hswap
    · cases hswap
      simp only [Node.occurrences_unary, Option.toList_some, total_cons, total_nil] at hmerged ⊢
      omega
    · cases hswap
      exact hmerged
  | off => simp

/-- A rule leaves no deed standing more often than before. -/
theorem occurrences_simplified_le {form : Form Node} (h : Simplified o truth span form m) :
    m.occurrences d s ≤ (⟨form, span⟩ : Node).occurrences d s := by
  cases form with
  | debugger =>
    obtain rfl := h
    split
    · simp [Node.empty]
    · exact Nat.le_refl _
  | labeled label body =>
    obtain rfl := h
    split
    · rw [Node.occurrences_of_idle rfl]
      exact Nat.le_add_right _ _
    · exact Nat.le_refl _
  | block body =>
    obtain ⟨a, rfl, rfl⟩ | rfl := simplified_block h
    · simp
    · exact Nat.le_refl _
  | branch c body alternative => simpa using Branched.occurrences_le h
  | loop kind c body =>
    cases h with
    | forever =>
      rw [Node.occurrences_of_idle rfl, Node.occurrences_of_idle rfl]
      cases kind <;> simp [Form.children]
    | never => simp [Node.empty]
    | same => exact Nat.le_refl _
  | forLoop init c step body =>
    obtain rfl := h
    have hinit := total_toList_filter_le (f := Node.occurrences d s) (!·.isEmpty) init
    rw [Node.occurrences_of_idle rfl, Node.occurrences_of_idle rfl]
    simp only [Form.children, total_append]
    omega
  | boolean b =>
    obtain rfl := h
    simp
  | unary op x => simpa using Prefixed.occurrences_le h
  | binary op l r => simpa using Combined.occurrences_le h
  | conditional c a b => simpa using Chosen.occurrences_le h
  | index subject property =>
    obtain rfl := h
    unfold index
    split
    · split
      · rw [Node.occurrences_of_idle rfl, Node.occurrences_of_idle rfl]
        simp [Form.children]
      · exact Nat.le_refl _
    · exact Nat.le_refl _
  | _ =>
    obtain rfl := h
    exact Nat.le_refl _

end Rule

namespace Statements

variable {o : Options} {n : Node} {ns : List Node}

theorem total_keptDeclarations_le (n : Node) :
    total (Node.occurrences d s) (keptDeclarations n) ≤ n.occurrences d s := by
  induction n using Node.induct with
  | h n ih =>
    have hbelow (cs : List Node) (hcs : ∀ c ∈ cs, c ∈ n.children) :
        total (Node.occurrences d s) ((cs.flatMap (Node.visited searchesBelow)).filterMap
          keptDeclaration?) ≤ total (Node.occurrences d s) cs := by
      induction cs with
      | nil => exact Nat.le_refl _
      | cons c cs ihcs =>
        have hhead := ih c (hcs c List.mem_cons_self)
        have htail := ihcs fun b hb => hcs b (List.mem_cons_of_mem c hb)
        rw [keptDeclarations] at hhead
        rw [List.flatMap_cons, List.filterMap_append, total_append, total_cons]
        omega
    have hchildren := hbelow n.children fun c hc => hc
    rw [keptDeclarations, Node.visited_eq, List.filterMap_cons]
    obtain ⟨form, span⟩ := n
    cases form with
    | declaration l => simp [keptDeclaration?, searchesBelow, Node.opensScope, Form.opensScope]
    | definitions kind bs hoisted =>
      simp [keptDeclaration?, searchesBelow, Node.occurrences_mk, Form.deed?, Form.children,
        List.filterMap_map, Function.comp_def]
    | program body => exact Nat.zero_le _
    | function l => exact Nat.zero_le _
    | _ =>
      refine Nat.le_trans hchildren ?_
      rw [Node.occurrences_mk]
      exact Nat.le_add_left _ _

theorem total_survivors_le (n : Node) :
    total (Node.occurrences d s) (survivors n) ≤ n.occurrences d s := by
  have hkept := total_keptDeclarations_le (d := d) (s := s) n
  obtain ⟨form, span⟩ := n
  cases form with
  | declaration l => simp [survivors]
  | _ => exact hkept

theorem total_flatten (ns : List Node) :
    total (Node.occurrences d s) (flatten ns) = total (Node.occurrences d s) ns := by
  induction ns with
  | nil => rfl
  | cons n ns ih =>
    obtain ⟨form, span⟩ := n
    cases form with
    | block body => simp [flatten, ih]
    | empty => simp [flatten, ih]
    | _ => exact congrArg (_ + ·) ih

theorem total_pruned_le (ns : List Node) :
    total (Node.occurrences d s) (pruned ns) ≤ total (Node.occurrences d s) ns := by
  have hsurvivors (ns : List Node) : total (Node.occurrences d s) (ns.flatMap survivors) ≤
      total (Node.occurrences d s) ns := by
    induction ns with
    | nil => exact Nat.le_refl _
    | cons n ns ih =>
      have hhead := total_survivors_le (d := d) (s := s) n
      rw [List.flatMap_cons, total_append, total_cons]
      omega
  induction ns with
  | nil => exact Nat.le_refl _
  | cons n ns ih =>
    have htail := hsurvivors ns
    rw [pruned]
    split <;>
    · rw [total_cons, total_cons]
      omega

theorem total_joinRuns (ns : List Node) :
    total (Node.occurrences d s) (joinRuns ns) = total (Node.occurrences d s) ns := by
  fun_induction joinRuns ns with
  | case1 a span b t ns ih => simp [ih, Nat.add_assoc]
  | case2 n ns _ ih => rw [total_cons, total_cons, ih]
  | case3 => rfl

theorem total_join (ns : List Node) :
    total (Node.occurrences d s) (join ns) = total (Node.occurrences d s) ns := by
  have hruns := total_joinRuns (d := d) (s := s) ns
  unfold join
  split
  · rename_i heq
    rw [← hruns, heq]
    simp
  · exact hruns

/-- Tidying a list leaves no deed standing more often than before. -/
theorem total_tidied_le (ns : List Node) :
    total (Node.occurrences d s) (tidied o ns) ≤ total (Node.occurrences d s) ns := by
  have hflat := total_flatten (d := d) (s := s) ns
  have hpruned := total_pruned_le (d := d) (s := s) (flatten ns)
  unfold tidied
  split <;> split <;> simp only [total_join] <;> omega

end Statements

namespace Hoist

variable {h : Hoist} {span : Span}

theorem functionsIn_cons (n : Node) (ns : List Node) :
    h.functionsIn (n :: ns) = h.functionsIn [n] ++ h.functionsIn ns := by
  cases hf : h.functions <;> simp [functionsIn, reach, hf]

/-- The copied functions of a node that a search goes below are those of its children. -/
theorem functionsIn_of_searchesBelow {n : Node} (hs : searchesBelow n = true) :
    h.functionsIn [n] = h.functionsIn n.children := by
  have hn : isFunction n = false := by
    obtain ⟨form, span⟩ := n
    cases form <;> first | rfl | exact absurd hs Bool.false_ne_true
  cases hf : h.functions <;> simp [functionsIn, reach, hf, Node.visited_eq searchesBelow n, hs, hn]

/-- Marking below a node counts what marking its children counts. -/
theorem live_mark_of_searchesBelow {form : Form Node} (hs : searchesBelow ⟨form, span⟩ = true) :
    (h.mark ⟨form, span⟩).live d s = (⟨form, span⟩ : Node).own d s +
      total (fun c => (h.mark c).live d s) form.children := by
  rw [mark_mk, if_pos hs, Node.live_mk, Form.children_withHoisted, Form.children_map, total_map]
  cases form with
  | declaration | function => exact absurd hs Bool.false_ne_true
  | _ => rfl

/-- A function that is copied is marked: the copies and what marking leaves of a list hold together
what the list held, if they do so for each node of it. -/
theorem total_mark_add {ns : List Node}
    (hns : ∀ n ∈ ns, (h.mark n).live d s + total (Node.live d s) (h.functionsIn [n]) = n.live d s) :
    total (fun n => (h.mark n).live d s) ns + total (Node.live d s) (h.functionsIn ns) =
      total (Node.live d s) ns := by
  induction ns with
  | nil => simp [functionsIn, reach]
  | cons n ns ih =>
    have hhead := hns n List.mem_cons_self
    have htail := ih fun m hm => hns m (List.mem_cons_of_mem n hm)
    rw [functionsIn_cons, total_append, total_cons, total_cons]
    omega

theorem live_mark_add (n : Node) :
    (h.mark n).live d s + total (Node.live d s) (h.functionsIn [n]) = n.live d s := by
  induction n using Node.induct with
  | h n ih =>
    have hchildren := total_mark_add ih
    obtain ⟨form, span⟩ := n
    by_cases hs : searchesBelow ⟨form, span⟩ = true
    · have hvanishes : form.vanishes = false := by
        cases form <;> first | rfl | exact absurd hs Bool.false_ne_true
      rw [functionsIn_of_searchesBelow hs, live_mark_of_searchesBelow hs, Node.live_eq,
        Node.form_mk, hvanishes, Nat.add_assoc]
      exact congrArg (_ + ·) hchildren
    · cases form with
      | declaration l =>
        -- the copy and the marked function cannot both be live
        have hmark : h.mark ⟨.declaration l, span⟩ =
            ⟨.declaration { l with hoisted := l.hoisted || h.functions }, span⟩ := mark_mk _
        cases hf : h.functions with
        | true =>
          have hcopy : h.functionsIn [⟨.declaration l, span⟩] = [⟨.declaration l, span⟩] := by
            simp [functionsIn, reach, hf, Node.visited_eq searchesBelow, searchesBelow, isFunction]
          simp [hmark, hcopy, Node.live_mk, Form.vanishes, hf]
        | false =>
          have hcopy : h.functionsIn [⟨.declaration l, span⟩] = [] := by
            simp [functionsIn, hf]
          simp [hmark, hcopy, hf]
      | function l =>
        have hcopy : h.functionsIn [⟨.function l, span⟩] = [] := by
          simp [functionsIn, reach, Node.visited_eq searchesBelow, searchesBelow, isFunction]
        simp [mark_function, hcopy]
      | _ => exact absurd rfl hs

/-- What a scope lists after hoisting holds what its body held. -/
theorem total_surface_le (params : Option (List String)) (body : List Node) :
    total (Node.live d s) (h.surface params span body).1 ≤ total (Node.live d s) body := by
  have hvars : total (Node.live d s) (declaration (h.varsIn body) span) = 0 := by
    unfold declaration
    split
    · rfl
    · simp [Node.live_mk, Form.vanishes, Form.deed?, Form.children, List.filterMap_map,
        Function.comp_def]
  have hrest : total (Node.live d s) (h.functionsIn body ++ body.map h.mark) =
      total (Node.live d s) body := by
    rw [total_append, total_map, Nat.add_comm]
    exact total_mark_add fun n _ => live_mark_add n
  cases params with
  | some params => exact Nat.le_of_eq hrest
  | none =>
    refine Nat.le_of_eq ?_
    change total (Node.live d s) (declaration (h.varsIn body) span ++
      (h.functionsIn body ++ body.map h.mark)) = _
    rw [total_append, hvars, Nat.zero_add, hrest]

theorem total_surfaceForm_le (form : Form Node) : total (Node.live d s)
    (h.surfaceForm span form).children ≤ total (Node.live d s) form.children := by
  cases form with
  | program body => exact total_surface_le _ body
  | declaration l | function l => exact total_surface_le _ l.body
  | _ => exact Nat.le_refl _

theorem deed?_surfaceForm (form : Form Node) : (h.surfaceForm span form).deed? = form.deed? := by
  cases form <;> rfl

end Hoist

theorem Form.Lift.deed? {form form' : Form Node} {R : Category → Node → Node → Prop}
    {L : List Node → List Node → Prop} (h : form.Lift R L form') : form'.deed? = form.deed? := by
  cases h <;> rfl

/-- The assignments of a `var` hold what its initializers hold. -/
theorem live_assignments? {bs : List (Binding Node)} {hoisted : Bool} {kind : DeclarationKind}
    {span : Span} {a : Node} (ha : a ∈ assignments? bs) :
    a.live d s = (⟨.definitions kind bs hoisted, span⟩ : Node).live d s := by
  have hjoin (n : Node) (ns : List Node) :
      (n.commaJoined ns).live d s = n.live d s + total (Node.live d s) ns := by
    induction ns generalizing n with
    | nil => rfl
    | cons m ms ih =>
      simp [Node.commaJoined, Node.live_mk, Form.vanishes, Form.deed?, Form.children, ih]
  have hassigned : total (Node.live d s) (bs.filterMap Binding.assignment?) =
      total (Node.live d s) (bs.filterMap (·.value)) := by
    rw [total_filterMap, total_filterMap]
    congr 1
    funext b
    cases hb : b.value <;>
      simp [Binding.assignment?, hb, Node.live_mk, Form.vanishes, Form.deed?, Form.children]
  have hdefinitions : (⟨.definitions kind bs hoisted, span⟩ : Node).live d s =
      total (Node.live d s) (bs.filterMap (·.value)) := by
    simp [Node.live_mk, Form.vanishes, Form.deed?, Form.children]
  rw [hdefinitions, ← hassigned]
  rw [assignments?] at ha
  split at ha
  · cases ha
  · rename_i n ns hns
    obtain rfl := Option.some.inj ha
    rw [hns, hjoin, total_cons]

theorem Rule.occurrences_placeAssignments_le {parent? : Option Enclosure} {bs : List (Binding Node)}
    {a? : Option Node} {span : Span} : (placeAssignments parent? bs a? span).occurrences d s ≤
      total (Node.occurrences d s) a?.toList := by
  unfold placeAssignments
  split
  · simp
  · split
    · simp [Node.empty]
    · exact Nat.le_of_eq (Node.occurrences_of_idle rfl)
  · simp
  · simp
  · simp [Node.empty]

/-- The invariant of the pass: a deed stands in what comes out as often at most as in what is
reduced, less what is marked. -/
theorem gives_occurrences {o : Options} (n : Node) (t : Setting) :
    Gives (fun _ => True) t.Holds (n.reduce o) fun m => m.occurrences d s ≤ n.live d s := by
  induction n using Node.reduceInduct o generalizing t with
  | unmarked form span hm ihParts =>
    refine gives_reduce (R := fun _ a b => b.occurrences d s ≤ a.live d s) hm (fun c hc => hc.1)
      (fun k a ha => (ihParts k a ha _).narrow fun _ => Setting.holds_child) fun form' h => ?_
    refine ⟨Rule.tests_any form', fun m hm' => ?_⟩
    have hrule := Rule.occurrences_simplified_le (d := d) (s := s) hm'
    have hparts : total (Node.occurrences d s) form'.children ≤
        total (Node.live d s) (o.hoist.surfaceForm span form).children := by
      refine h.children.total_le (fun _ _ _ hab => hab) fun as bs hbs => ?_
      obtain ⟨ms, hms, rfl⟩ := hbs
      have hreduced := total_le_of_forall₂ (fun _ _ hab => hab) hms
      exact Nat.le_trans (Statements.total_tidied_le ms) hreduced
    have hsurface : total (Node.live d s) (o.hoist.surfaceForm span form).children ≤
        total (Node.live d s) form.children := Hoist.total_surfaceForm_le form
    have hdeed : form'.deed? = form.deed? := h.deed?.trans (Hoist.deed?_surfaceForm form)
    have hlive : form.vanishes = false := by
      cases form <;> first | rfl | exact hm
    rw [Node.occurrences_mk, hdeed] at hrule
    rw [Node.live_mk, hlive, if_neg Bool.false_ne_true]
    omega
  | declaration l span hl =>
    refine (gives_reduce_declaration hl).mono ?_
    rintro _ rfl
    simp [Node.empty]
  | definitions kind bs span ihAssignments =>
    refine (gives_reduce_definitions (R := fun a b => b.occurrences d s ≤ a.live d s)
      fun a ha => ihAssignments a ha _).mono ?_
    rintro _ ⟨a?, ha, rfl⟩
    refine Nat.le_trans Rule.occurrences_placeAssignments_le ?_
    refine Nat.le_trans (total_le_of_rel (fun _ _ hab => hab) ha) ?_
    cases hassignments : assignments? bs with
    | none => exact Nat.zero_le _
    | some a =>
      rw [Option.toList_some, total_cons, total_nil]
      exact Nat.le_of_eq (live_assignments? hassignments)

/-- Whatever is minified, no call, `new`, update or function stands in the outcome more often than in
the input. -/
theorem minify_occurrences_le (o : Options) (n m : Node) (h : (minify o n).result = .ok m)
    (d : Deed) (s : Span) : m.occurrences d s ≤ n.occurrences d s :=
  Nat.le_trans ((gives_occurrences n .initial).of_run Setting.holds_initial h)
    (Node.live_le_occurrences n)

/-- `if(a){function f(){g();}return;h();}`: the function is copied to the top and taken out below. -/
theorem minify_copied_function_occurrences_le :
    let f := Build.declaration "f" [] [Build.callStatement "g" []]
    let n := Build.program [Build.branch (Build.identifier "a") (Build.block [f,
      Build.returning none, Build.callStatement "h" []]) none]
    let m := Build.program [f, Build.branch (Build.identifier "a") (Build.returning none) none]
    (minify .full n).result = .ok m ∧ ∀ d s, m.occurrences d s ≤ n.occurrences d s := by
  intro f n m
  have h : (minify .full n).result = .ok m := by cbv
  exact ⟨h, minify_occurrences_le .full n m h⟩

end ScriptMinifier
