import Mathlib
import ScriptMinifier.Tree.Attach

namespace ScriptMinifier

/-- The name of a place where a form may have a child. -/
inductive Place where
  | value | init | condition | step | subject | body | alternative | test | handler | finalizer
  | operand | left | right | target | consequent | first | second | callee | property
  | item (index : Nat)
deriving DecidableEq, Repr

namespace Slot

variable {α β : Type}

/-- A place with what stands there, if it is not empty. -/
def perhaps (q : Place) (child? : Option α) : List (Place × α) := child?.toList.map (q, ·)

/-- Places in a list, some of which may be empty, numbered from `i` on. -/
def numbered : List (Option α) → Nat → List (Place × α)
  | [], _ => []
  | child? :: rest, i => perhaps (.item i) child? ++ numbered rest (i + 1)

/-- The places of a list. -/
def items (as : List α) : List (Place × α) := numbered (as.map some) 0

variable {as : List α} {os : List (Option α)} {o : Option α} {q : Place} {i : Nat} {s : Place × α}

@[simp] theorem map_snd_perhaps (q : Place) (o : Option α) :
    (perhaps q o).map Prod.snd = o.toList := by
  simp [perhaps, Function.comp_def]

@[simp] theorem map_snd_numbered (os : List (Option α)) (i : Nat) :
    (numbered os i).map Prod.snd = os.filterMap id := by
  induction os generalizing i with
  | nil => rfl
  | cons o os ih => cases o <;> simp [numbered, ih]

@[simp] theorem map_snd_items (as : List α) : (items as).map Prod.snd = as := by
  simp [items, List.filterMap_map]

@[simp] theorem perhaps_map (f : α → β) (q : Place) (o : Option α) :
    perhaps q (o.map f) = (perhaps q o).map (Prod.map id f) := by
  cases o <;> rfl

@[simp] theorem numbered_map (f : α → β) (os : List (Option α)) (i : Nat) :
    numbered (os.map (Option.map f)) i = (numbered os i).map (Prod.map id f) := by
  induction os generalizing i with
  | nil => rfl
  | cons o os ih => simp [numbered, ih]

@[simp] theorem items_map (f : α → β) (as : List α) :
    items (as.map f) = (items as).map (Prod.map id f) := by
  simp [items, ← numbered_map, Function.comp_def]

theorem eq_of_mem_perhaps (h : s ∈ perhaps q o) : s.1 = q := by
  cases o <;> simp_all [perhaps]

theorem nodup_perhaps (q : Place) (o : Option α) : ((perhaps q o).map Prod.fst).Nodup := by
  cases o <;> simp [perhaps]

/-- Numbers go on from the first. -/
theorem exists_of_mem_numbered (h : s ∈ numbered os i) : ∃ j, i ≤ j ∧ s.1 = .item j := by
  induction os generalizing i with
  | nil => cases h
  | cons o os ih =>
    rcases List.mem_append.1 h with h | h
    · exact ⟨i, le_rfl, eq_of_mem_perhaps h⟩
    · obtain ⟨j, hj, hs⟩ := ih h
      exact ⟨j, by omega, hs⟩

theorem nodup_numbered (os : List (Option α)) (i : Nat) :
    ((numbered os i).map Prod.fst).Nodup := by
  induction os generalizing i with
  | nil => exact List.nodup_nil
  | cons o os ih =>
    rw [numbered, List.map_append, List.nodup_append]
    refine ⟨nodup_perhaps _ o, ih (i + 1), ?_⟩
    intro q hq q' hq' heq
    obtain ⟨s, hs, rfl⟩ := List.mem_map.1 hq
    obtain ⟨t, ht, rfl⟩ := List.mem_map.1 hq'
    obtain ⟨j, hj, hitem⟩ := exists_of_mem_numbered ht
    rw [eq_of_mem_perhaps hs, hitem] at heq
    cases heq
    omega

theorem nodup_items (as : List α) : ((items as).map Prod.fst).Nodup := nodup_numbered _ 0

/-- A list and places that are not its items. -/
theorem nodup_items_append {rest : List (Place × α)} (hrest : (rest.map Prod.fst).Nodup)
    (hitem : ∀ q ∈ rest.map Prod.fst, ∀ j, q ≠ .item j) (as : List α) :
    ((items as ++ rest).map Prod.fst).Nodup := by
  rw [List.map_append, List.nodup_append]
  refine ⟨nodup_items as, hrest, ?_⟩
  intro q hq r hr heq
  obtain ⟨s, hs, rfl⟩ := List.mem_map.1 hq
  obtain ⟨j, -, hj⟩ := exists_of_mem_numbered hs
  exact hitem r hr j (heq ▸ hj)

end Slot

namespace Form

open Slot

variable {α β : Type}

/-- The children of a form in source order, each with its place. Only `do ... while` has its body
before its condition. -/
def slots : Form α → List (Place × α)
  | empty | debugger | jump .. | string _ | number _ | boolean _ | null | undefined
  | identifier _ | this => []
  | expression e => [(.value, e)]
  | exit _ value => perhaps .value value
  | labeled _ b => [(.body, b)]
  | branch c b alternative => (.condition, c) :: (.body, b) :: perhaps .alternative alternative
  | loop .whileDo c b => [(.condition, c), (.body, b)]
  | loop .doWhile c b => [(.body, b), (.condition, c)]
  | forLoop init c step b =>
    perhaps .init init ++ perhaps .condition c ++ perhaps .step step ++ [(.body, b)]
  | forIn init e b => [(.init, init), (.subject, e), (.body, b)]
  | switch e cases => (.subject, e) :: items cases
  | case test body => perhaps .test test ++ items body
  | try_ body handler finalizer =>
    items body ++ perhaps .handler handler ++ perhaps .finalizer finalizer
  | with_ e b => [(.subject, e), (.body, b)]
  | block es | catch_ _ es | finally_ es | program es | array es => items es
  | declaration l | function l => items l.body
  | definitions _ bindings _ => numbered (bindings.map (·.value)) 0
  | object ps => items (ps.map (·.value))
  | unary _ e | update _ e => [(.operand, e)]
  | binary _ l r => [(.left, l), (.right, r)]
  | assign _ l r => [(.target, l), (.value, r)]
  | conditional c a b => [(.condition, c), (.consequent, a), (.alternative, b)]
  | sequence a b => [(.first, a), (.second, b)]
  | call e args | construct e args => (.callee, e) :: items args
  | member e _ => [(.subject, e)]
  | index e p => [(.subject, e), (.property, p)]

variable {form : Form α} {q : Place} {a : α}

/-- What stands at a place of a form. -/
def child? (form : Form α) (q : Place) : Option α := form.slots.lookup q

/-- In a form one place is before another. -/
def Precedes (form : Form α) (q r : Place) : Prop := [q, r].Sublist (form.slots.map Prod.fst)

theorem map_snd_slots (form : Form α) : form.slots.map Prod.snd = form.children := by
  cases form with
  | loop k => cases k <;> rfl
  | definitions k bindings h => simp [slots, children, List.filterMap_map]
  | object ps => simp only [slots, children, map_snd_items]
  | _ => simp [slots, children]

theorem slots_map (f : α → β) (form : Form α) :
    (form.map f).slots = form.slots.map (Prod.map id f) := by
  cases form with
  | loop k => cases k <;> rfl
  | definitions k bindings h =>
    simp only [slots, map, ← numbered_map, List.map_map]
    rfl
  | object ps =>
    simp only [slots, map, ← items_map, List.map_map]
    rfl
  | _ => simp [slots, map]

/-- Each place has one child. -/
theorem nodup_slots (form : Form α) : (form.slots.map Prod.fst).Nodup := by
  have hcons (q : Place) (hq : ∀ j, q ≠ .item j) (a : α) (as : List α) :
      (((q, a) :: items as).map Prod.fst).Nodup := by
    have happend : ((items as ++ [(q, a)]).map Prod.fst).Nodup :=
      nodup_items_append (by simp) (by simpa using hq) as
    rw [List.map_append, List.nodup_append_comm, ← List.map_append] at happend
    exact happend
  cases form with
  | loop k => cases k <;> simp [slots]
  | branch c b v => cases v <;> simp [slots, perhaps]
  | exit k v => exact nodup_perhaps _ v
  | forLoop i c s b => cases i <;> cases c <;> cases s <;> simp [slots, perhaps]
  | case t b =>
    cases t with
    | none => exact nodup_items b
    | some t => exact hcons _ (by simp) t b
  | try_ b h f =>
    rw [slots, List.append_assoc]
    apply nodup_items_append
    · cases h <;> cases f <;> simp [perhaps]
    · cases h <;> cases f <;> simp [perhaps]
  | switch e es | call e es | construct e es => exact hcons _ (by simp) e es
  | definitions k bs h => exact nodup_numbered _ 0
  | object ps => exact nodup_items _
  | _ => simp [slots, nodup_items]

/-- Places are listed in their order. -/
theorem pairwise_slots (form : Form α) :
    form.slots.Pairwise fun s t => form.Precedes s.1 t.1 := by
  apply List.pairwise_iff_forall_sublist.2
  intro s t h
  exact h.map Prod.fst

theorem not_precedes_self (form : Form α) (q : Place) : ¬ form.Precedes q q := by
  intro h
  have hnodup := form.nodup_slots.sublist h
  simp at hnodup

theorem lookup_of_mem {l : List (Place × α)} (hl : (l.map Prod.fst).Nodup) (h : (q, a) ∈ l) :
    l.lookup q = some a := by
  induction l with
  | nil => cases h
  | cons s l ih =>
    obtain ⟨r, b⟩ := s
    rw [List.map_cons, List.nodup_cons] at hl
    rcases List.mem_cons.1 h with heq | hmem
    · cases heq
      simp
    · have hne : q ≠ r := by
        intro heq
        subst heq
        exact hl.1 (List.mem_map.2 ⟨_, hmem, rfl⟩)
      rw [List.lookup_cons, beq_false_of_ne hne]
      exact ih hl.2 hmem

theorem child?_eq_some_iff : form.child? q = some a ↔ (q, a) ∈ form.slots := by
  constructor
  · intro h
    obtain ⟨l, l', heq, -⟩ := List.lookup_eq_some_iff.1 h
    rw [heq]
    simp
  · exact lookup_of_mem form.nodup_slots

theorem child?_map (f : α → β) (form : Form α) (q : Place) :
    (form.map f).child? q = (form.child? q).map f := by
  rw [child?, child?, slots_map]
  induction form.slots with
  | nil => rfl
  | cons s l ih =>
    obtain ⟨r, a⟩ := s
    rw [List.map_cons, Prod.map, List.lookup_cons, List.lookup_cons, id]
    cases q == r with
    | true => rfl
    | false => exact ih

/-- The places hold all that a map of the form comes to. -/
theorem map_eq_map_iff {f g : α → β} :
    form.map f = form.map g ↔ ∀ q a, form.child? q = some a → f a = g a := by
  constructor
  · intro h q a ha
    have hchild := congrArg (·.child? q) h
    simpa [child?_map, ha] using hchild
  · intro h
    apply map_congr
    intro a ha
    rw [← map_snd_slots] at ha
    obtain ⟨s, hs, rfl⟩ := List.mem_map.1 ha
    exact h s.1 s.2 (child?_eq_some_iff.2 hs)

/-- The form with each child beside its place. -/
def placed : Form α → Form (Place × α)
  | expression e => expression (.value, e)
  | block es => block (items es)
  | empty => empty
  | debugger => debugger
  | labeled l b => labeled l (.body, b)
  | exit k value => exit k (value.map (.value, ·))
  | jump k l => jump k l
  | branch c b alternative =>
    branch (.condition, c) (.body, b) (alternative.map (.alternative, ·))
  | loop k c b => loop k (.condition, c) (.body, b)
  | forLoop init c step b =>
    forLoop (init.map (.init, ·)) (c.map (.condition, ·)) (step.map (.step, ·)) (.body, b)
  | forIn init e b => forIn (.init, init) (.subject, e) (.body, b)
  | switch e cases => switch (.subject, e) (items cases)
  | case test body => case (test.map (.test, ·)) (items body)
  | try_ body handler finalizer =>
    try_ (items body) (handler.map (.handler, ·)) (finalizer.map (.finalizer, ·))
  | catch_ s es => catch_ s (items es)
  | finally_ es => finally_ (items es)
  | with_ e b => with_ (.subject, e) (.body, b)
  | definitions k bs h => definitions k (bs.zipIdx.map fun b => b.1.map (.item b.2, ·)) h
  | declaration l => declaration { l with body := items l.body }
  | program es => program (items es)
  | function l => function { l with body := items l.body }
  | string s => string s
  | number x => number x
  | boolean b => boolean b
  | null => null
  | undefined => undefined
  | identifier s => identifier s
  | this => this
  | unary op e => unary op (.operand, e)
  | update op e => update op (.operand, e)
  | binary op l r => binary op (.left, l) (.right, r)
  | assign op l r => assign op (.target, l) (.value, r)
  | conditional c a b => conditional (.condition, c) (.consequent, a) (.alternative, b)
  | sequence a b => sequence (.first, a) (.second, b)
  | call e args => call (.callee, e) (items args)
  | construct e args => construct (.callee, e) (items args)
  | member e s => member (.subject, e) s
  | index e p => index (.subject, e) (.property, p)
  | array es => array (items es)
  | object ps => object (ps.zipIdx.map fun p => p.1.map (.item p.2, ·))

@[simp] theorem placed_map (f : α → β) (form : Form α) :
    (form.map f).placed = form.placed.map (Prod.map id f) := by
  cases form with
  | definitions | object =>
    simp [placed, map, List.zipIdx_map, Binding.map, Property.map, Function.comp_def]
  | _ => simp [placed, map, Function.comp_def]

@[simp] theorem map_snd_placed (form : Form α) : form.placed.map Prod.snd = form := by
  cases form with
  | definitions | object =>
    simp [placed, map, Binding.map, Property.map, Function.comp_def]
  | _ => simp [placed, map, Function.comp_def]

end Form

end ScriptMinifier
