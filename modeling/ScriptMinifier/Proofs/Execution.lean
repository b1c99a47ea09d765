import ScriptMinifier.Proofs.Audit

/-!
What a statement does when it is executed, over what its parts do. Loops take a bounded number of
rounds, so that executions that never end are told apart by what they have done within every bound.
How expressions are evaluated is left open: `Node.exec` executes a tree as it stands or under audit.

Labels, `switch`, `try`, `with`, `for ... in` and functions are not executed.
-/

namespace ScriptMinifier

/-- The statements that are executed. -/
def Form.isStructured {α : Type} : Form α → Bool
  | expression _ | block _ | empty | branch .. | loop .. | forLoop .. | exit .. | jump _ none
  | definitions .var _ _ => true
  | _ => false

theorem Node.isStatement_of_isStructured {form : Form Node} {span : Span}
    (h : form.isStructured = true) : (⟨form, span⟩ : Node).isStatement = true := by
  cases form <;> first | rfl | cases h

/-- How a statement ends. -/
inductive Completion where
  | normal
  | jump (kind : JumpKind) (label : Option String)
  | exit (kind : ExitKind) (value : Option Primitive)
  /-- A loop has taken all rounds that it may take. -/
  | exhausted

/-- What a part of a statement does where it is evaluated, for its truth alone or for its value, and
where it is executed. -/
structure Piece (m : Type → Type) where
  value : Bool → m Primitive
  effect : m Completion

namespace Interpretation

section

variable {m : Type → Type} [Monad m]

/-- The second computation follows the first where that ends normally. -/
def follow (x y : m Completion) : m Completion := do
  match ← x with
  | .normal => y
  | c => return c

def inOrder : List (m Completion) → m Completion
  | [] => return .normal
  | x :: xs => follow x (inOrder xs)

/-- A round of a loop, and what comes after it unless the body leaves the loop. -/
def round (body again : m Completion) : m Completion := do
  match ← body with
  | .normal | .jump .next none => again
  | .jump .leave none => return .normal
  | c => return c

/-- Takes rounds as long as the test holds. -/
def cycle (test : m Bool) (body : m Completion) (step : m Unit) : Nat → m Completion
  | 0 => do
    if ← test then return .exhausted else return .normal
  | k + 1 => do
    if ← test then
      round body do
        step
        cycle test body step k
    else return .normal

/-- Takes a round before the first test. -/
def cycleAfter (test : m Bool) (body : m Completion) : Nat → m Completion
  | 0 => return .exhausted
  | k + 1 => round body (cycle test body (pure ()) k)

def orNothing (x? : Option (m Completion)) : m Completion := x?.getD (pure .normal)

variable (I : Interpretation m)

/-- A variable with an initializer is assigned to. -/
def define (b : Binding (Piece m)) : m Completion :=
  match b.value with
  | none => return .normal
  | some x => do
    let v ← I.act (.identifier b.name) []
    let w ← x.value false
    let _ ← I.act (.assign .assign) [v, w]
    return .normal

/-- What a statement does over what its parts do; loops take at most `k` rounds. -/
def perform (k : Nat) : Form (Piece m) → m Completion
  | .expression x => do
    let _ ← x.value false
    return .normal
  | .block xs | .program xs => inOrder (xs.map (·.effect))
  | .branch c x y? => do
    let v ← c.value true
    if v.truthy then x.effect else orNothing (y?.map (·.effect))
  | .loop .whileDo c x => cycle (Primitive.truthy <$> c.value true) x.effect (pure ()) k
  | .loop .doWhile c x => cycleAfter (Primitive.truthy <$> c.value true) x.effect k
  | .forLoop init? c? step? x =>
    follow (orNothing (init?.map (·.effect))) <|
      cycle ((c?.map fun c => Primitive.truthy <$> c.value true).getD (pure true)) x.effect
        ((step?.map fun s => do let _ ← s.value false).getD (pure ())) k
  | .exit kind none => return .exit kind none
  | .exit kind (some x) => do
    let v ← x.value false
    return .exit kind (some v)
  | .jump kind label => return .jump kind label
  | .definitions _ bs _ => inOrder (bs.map I.define)
  | _ => return .normal

end

end Interpretation

namespace Node

variable {m : Type → Type} [Monad m]

/-- Executes a statement, or an expression for its effects. -/
def exec (I : Interpretation m) (value : Node → Bool → m Primitive) (k : Nat) (n : Node) :
    m Completion :=
  if n.isStatement then
    I.perform k (n.form.attach.map fun c => ⟨value c.1, exec I value k c.1⟩)
  else do
    let _ ← value n false
    return .normal
termination_by sizeOf n
decreasing_by exact sizeOf_lt_of_mem c.2

theorem exec_eq (I : Interpretation m) (value : Node → Bool → m Primitive) (k : Nat) (n : Node) :
    n.exec I value k = if n.isStatement then
      I.perform k (n.form.map fun c => ⟨value c, c.exec I value k⟩)
    else do
      let _ ← value n false
      return .normal := by
  have h := Form.map_map (fun c => (⟨value c, exec I value k c⟩ : Piece m)) Subtype.val
    n.form.attach
  rw [Form.attach_map_val] at h
  rw [exec, h]

theorem exec_statement {I : Interpretation m} {value : Node → Bool → m Primitive} {k : Nat}
    {n : Node} (hs : n.isStatement = true) :
    n.exec I value k = I.perform k (n.form.map fun c => ⟨value c, c.exec I value k⟩) := by
  rw [exec_eq, if_pos hs]

/-- Executes a tree as it stands. -/
def run (I : Interpretation m) (k : Nat) (n : Node) : m Completion :=
  n.exec I (fun e _ => e.eval I) k

end Node

namespace Comparison

open Interpretation

variable {m m' : Type → Type} [Monad m] [Monad m'] (K : Comparison m m')

/-- Two parts do related things in a place. -/
def Matches : Category → Piece m → Piece m' → Prop
  | .condition, x, y => K.rel (Agree true) (x.value true) (y.value true)
  | .head, x, y | .statement, x, y => K.rel Eq x.effect y.effect
  | _, x, y => K.rel (Agree false) (x.value false) (y.value false)

variable {K} {I : Interpretation m} {J : Interpretation m'}

theorem rel_follow {x y : m Completion} {x' y' : m' Completion} (hx : K.rel Eq x x')
    (hy : K.rel Eq y y') : K.rel Eq (follow x y) (follow x' y') := by
  refine K.rel_bind hx fun c c' hc => ?_
  subst hc
  cases c with
  | normal => exact hy
  | _ => exact K.rel_pure rfl

theorem rel_inOrder {xs : List (m Completion)} {ys : List (m' Completion)}
    (h : List.Forall₂ (K.rel Eq) xs ys) : K.rel Eq (inOrder xs) (inOrder ys) := by
  induction h with
  | nil => exact K.rel_pure rfl
  | cons h _ ih => exact rel_follow h ih

theorem rel_round {x y : m Completion} {x' y' : m' Completion} (hx : K.rel Eq x x')
    (hy : K.rel Eq y y') : K.rel Eq (round x y) (round x' y') := by
  refine K.rel_bind hx fun c c' hc => ?_
  subst hc
  split
  · exact hy
  · exact hy
  · exact K.rel_pure rfl
  · exact K.rel_pure rfl

theorem rel_cycle {t : m Bool} {t' : m' Bool} {x : m Completion} {x' : m' Completion}
    {s : m Unit} {s' : m' Unit} (ht : K.rel Eq t t') (hx : K.rel Eq x x')
    (hs : K.rel (fun _ _ => True) s s') (k : Nat) :
    K.rel Eq (cycle t x s k) (cycle t' x' s' k) := by
  induction k with
  | zero =>
    refine K.rel_bind ht fun b b' hb => ?_
    subst hb
    split <;> exact K.rel_pure rfl
  | succ k ih =>
    refine K.rel_bind ht fun b b' hb => ?_
    subst hb
    split
    · exact rel_round hx (K.rel_bind hs fun _ _ _ => ih)
    · exact K.rel_pure rfl

theorem rel_cycleAfter {t : m Bool} {t' : m' Bool} {x : m Completion} {x' : m' Completion}
    (ht : K.rel Eq t t') (hx : K.rel Eq x x') (k : Nat) :
    K.rel Eq (cycleAfter t x k) (cycleAfter t' x' k) := by
  cases k with
  | zero => exact K.rel_pure rfl
  | succ k => exact rel_round hx (rel_cycle ht hx (K.rel_pure trivial) k)

theorem rel_orNothing {R : Piece m → Piece m' → Prop} {x? : Option (Piece m)}
    {y? : Option (Piece m')} (h : Option.Rel R x? y?)
    (hR : ∀ x y, R x y → K.rel Eq x.effect y.effect) :
    K.rel Eq (orNothing (x?.map (·.effect))) (orNothing (y?.map (·.effect))) := by
  cases h with
  | none => exact K.rel_pure rfl
  | some h => exact hR _ _ h

theorem Shares.rel_define (hI : K.Shares I J) {b : Binding (Piece m)} {b' : Binding (Piece m')}
    (h : Binding.Lift (K.Matches .expression) b b') : K.rel Eq (I.define b) (J.define b') := by
  obtain ⟨value, hv⟩ := h
  unfold define
  generalize b.value = v at hv
  cases hv with
  | none => exact K.rel_pure rfl
  | some h =>
    refine K.rel_bind (hI.act _ _) fun v v' hv => ?_
    subst hv
    refine K.rel_bind h fun w w' hw => ?_
    obtain rfl := hw.eq
    exact K.rel_bind (hI.act _ _) fun _ _ _ => K.rel_pure rfl

variable [LawfulMonad m] [LawfulMonad m']

theorem rel_truth {x : m Primitive} {x' : m' Primitive} (h : K.rel (Agree true) x x') :
    K.rel Eq (Primitive.truthy <$> x) (Primitive.truthy <$> x') := by
  rw [map_eq_pure_bind, map_eq_pure_bind]
  exact K.rel_bind h fun v w hvw => K.rel_pure hvw

/-- Statements do related things if their parts do. -/
theorem Shares.rel_perform (hI : K.Shares I J) {f : Form (Piece m)} {g : Form (Piece m')}
    {L : List (Piece m) → List (Piece m') → Prop} (k : Nat) (h : f.Lift K.Matches L g)
    (hL : ∀ xs ys, L xs ys →
      K.rel Eq (inOrder (xs.map (·.effect))) (inOrder (ys.map (·.effect)))) :
    K.rel Eq (I.perform k f) (J.perform k g) := by
  cases h with
  | expression h => exact K.rel_bind h fun _ _ _ => K.rel_pure rfl
  | block h | program h => exact hL _ _ h
  | branch hc hx hy =>
    refine K.rel_bind hc fun v w hvw => ?_
    rw [hvw.truthy]
    split
    · exact hx
    · exact rel_orNothing hy fun _ _ h => h
  | @loop kind c c' x x' hc hx =>
    cases kind with
    | whileDo => exact rel_cycle (rel_truth hc) hx (K.rel_pure trivial) k
    | doWhile => exact rel_cycleAfter (rel_truth hc) hx k
  | forLoop hi hc hs hx =>
    refine rel_follow (rel_orNothing hi fun _ _ h => h) (rel_cycle ?_ hx ?_ k)
    · cases hc with
      | none => exact K.rel_pure rfl
      | some h => exact rel_truth h
    · cases hs with
      | none => exact K.rel_pure trivial
      | some h => exact K.rel_bind h fun _ _ _ => K.rel_pure trivial
  | exit h =>
    cases h with
    | none => exact K.rel_pure rfl
    | some h =>
      refine K.rel_bind h fun v w hvw => K.rel_pure ?_
      rw [hvw.eq]
  | definitions h =>
    refine rel_inOrder ?_
    induction h with
    | nil => exact .nil
    | cons h _ ih => exact .cons (hI.rel_define h) ih
  | _ => exact K.rel_pure rfl

/-- Executions of a tree do related things if the evaluations of its expressions do. -/
theorem Shares.rel_exec (hI : K.Shares I J) {value : Node → Bool → m Primitive}
    {value' : Node → Bool → m' Primitive}
    (hvalue : ∀ e t, K.rel (Agree t) (value e t) (value' e t)) (k : Nat) (n : Node) :
    K.rel Eq (n.exec I value k) (n.exec J value' k) := by
  induction n using Node.induct with
  | h n ih =>
    rw [Node.exec_eq, Node.exec_eq]
    split
    · have hsame : n.form.Lift (fun _ a b => a = b ∧ a ∈ n.children)
          (List.Forall₂ fun a b => a = b ∧ a ∈ n.children) n.form :=
        .refl (fun _ a ha => ⟨rfl, ha⟩) fun as h => List.forall₂_same.2 fun a ha => ⟨rfl, h a ha⟩
      have hpieces : (n.form.map fun c => (⟨value c, c.exec I value k⟩ : Piece m)).Lift K.Matches
          (List.Forall₂ fun x y => K.rel Eq x.effect y.effect)
          (n.form.map fun c => ⟨value' c, c.exec J value' k⟩) := by
        refine hsame.map (fun j a b hab => ?_) fun as bs h => ?_
        · obtain ⟨rfl, ha⟩ := hab
          cases j <;> first | exact ih a ha | exact hvalue a _
        · rw [List.forall₂_map_left_iff, List.forall₂_map_right_iff]
          refine h.imp fun a b hab => ?_
          obtain ⟨rfl, ha⟩ := hab
          exact ih a ha
      refine hI.rel_perform k hpieces fun xs ys h => rel_inOrder ?_
      rwa [List.forall₂_map_left_iff, List.forall₂_map_right_iff]
    · exact K.rel_bind (hvalue _ _) fun _ _ _ => K.rel_pure rfl

end Comparison

end ScriptMinifier
