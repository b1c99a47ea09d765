import Mathlib
import ScriptMinifier.Primitive.Comparison
import ScriptMinifier.Proofs.DoubleOrder
import ScriptMinifier.Proofs.Rules

namespace ScriptMinifier.Primitive

variable {v w u : Primitive} {x : Float}

/-- One step of `==`: what is to be compared after a conversion is left to `again`. -/
def looseEqWith (again : Primitive → Primitive → Bool) : Primitive → Primitive → Bool
  | undefined, undefined | undefined, null | null, undefined | null, null => true
  | undefined, _ | null, _ | _, undefined | _, null => false
  | number x, string s => x == Number.ofString s
  | string s, number x => Number.ofString s == x
  | boolean a, w => again (number (boolean a).toNumber) w
  | v, boolean b => again v (number (boolean b).toNumber)
  | v, w => strictEq v w

theorem looseEq_eq_looseEqWith (v w : Primitive) : v.looseEq w = looseEqWith looseEq v w := by
  cases v <;> cases w <;> simp only [looseEq, looseEqWith]

/-- A step leaves over only comparisons in which less is to be converted. -/
theorem looseEqWith_congr {again again' : Primitive → Primitive → Bool}
    (h : ∀ a b : Primitive, a.pending + b.pending < v.pending + w.pending →
      again a b = again' a b) : looseEqWith again v w = looseEqWith again' v w := by
  cases v <;> cases w <;> simp only [looseEqWith] <;> apply h <;> simp [pending]

/-- The steps that a comparison takes are as many as there are conversions, and one more. -/
theorem iterate_looseEqWith (beyond : Primitive → Primitive → Bool) {k : ℕ}
    (hk : v.pending + w.pending < k) : looseEqWith^[k] beyond v w = v.looseEq w := by
  induction k generalizing v w with
  | zero => omega
  | succ k ih =>
    rw [Function.iterate_succ_apply', looseEq_eq_looseEqWith]
    apply looseEqWith_congr
    intro a b hab
    apply ih
    omega

/-- What a value stands for in a comparison. -/
def settled : Primitive → Primitive
  | boolean b => number (boolean b).toNumber
  | v => v

theorem looseEq_settled (v w : Primitive) : v.looseEq w = v.settled.looseEq w.settled := by
  cases v <;> cases w <;> simp only [settled, looseEq]

theorem pending_settled (v : Primitive) : v.settled.pending = 0 := by
  cases v <;> rfl

theorem looseEq_comm_of_settled (hv : v.pending = 0) (hw : w.pending = 0) :
    v.looseEq w = w.looseEq v := by
  cases v <;> cases w <;>
    simp_all [pending, looseEq, strictEq, Exact.beq_comm, eq_comm]

theorem looseEq_comm (v w : Primitive) : v.looseEq w = w.looseEq v := by
  rw [looseEq_settled v, looseEq_settled w]
  exact looseEq_comm_of_settled (pending_settled v) (pending_settled w)

/-- Two values are of one kind. -/
inductive SameKind : Primitive → Primitive → Prop where
  | undefined : SameKind undefined undefined
  | null : SameKind null null
  | boolean (a b : Bool) : SameKind (boolean a) (boolean b)
  | number (x y : Float) : SameKind (number x) (number y)
  | string (s t : String) : SameKind (string s) (string t)

theorem looseEq_of_sameKind (h : SameKind v w) : v.looseEq w = v.strictEq w := by
  cases h with
  | undefined | null => simp only [looseEq, strictEq]
  | boolean a b => exact looseEq_boolean a b
  | number x y => simp only [looseEq]
  | string s t => exact looseEq_string s t

theorem sameKind_of_strictEq (h : v.strictEq w = true) : SameKind v w := by
  cases v <;> cases w <;> first | constructor | cases h

theorem looseEq_of_strictEq (h : v.strictEq w = true) : v.looseEq w = true := by
  rw [looseEq_of_sameKind (sameKind_of_strictEq h), h]

/-- Nothing else is equal to `null` or `undefined`. -/
theorem eq_nullish_of_looseEq (hu : u = null ∨ u = undefined) (h : v.looseEq u = true) :
    v = null ∨ v = undefined := by
  rcases hu with rfl | rfl <;> cases v <;> simp_all [looseEq]

/-- Beside a number a boolean and a string count as their numbers. -/
theorem looseEq_number (hu : (∃ b, u = boolean b) ∨ ∃ s, u = string s) (x : Float) :
    u.looseEq (number x) = (u.toNumber == x) := by
  rcases hu with ⟨b, rfl⟩ | ⟨s, rfl⟩ <;> simp only [looseEq, strictEq, toNumber]

/-- The laws of `==`. It ends, since it leaves over only comparisons in which less is to be
converted, and after as many steps as there are conversions, and one more, there is nothing left
over. It is symmetric and holds where `===` does, with which it agrees on values of one kind. Only
`null` and `undefined` are equal to one of these, and a boolean or a string equals a number that its
own number equals. -/
theorem looseEq_laws (v w : Primitive) :
    (∀ again other : Primitive → Primitive → Bool, looseEqWith again v w =
      looseEqWith (fun a b => if a.pending + b.pending < v.pending + w.pending then again a b
        else other a b) v w) ∧
    v.looseEq w = looseEqWith looseEq v w ∧
    (∀ (beyond : Primitive → Primitive → Bool) (k : ℕ),
      looseEqWith^[v.pending + w.pending + 1 + k] beyond v w = v.looseEq w) ∧
    v.looseEq w = w.looseEq v ∧
    (v.strictEq w = true → v.looseEq w = true) ∧
    (SameKind v w → v.looseEq w = v.strictEq w) ∧
    (w = null ∨ w = undefined → v.looseEq w = true → v = null ∨ v = undefined) ∧
    ((∃ b, v = boolean b) ∨ (∃ s, v = string s) → ∀ x,
      v.looseEq (number x) = (v.toNumber == x) ∧ (number x).looseEq v = (v.toNumber == x)) := by
  refine ⟨?_, looseEq_eq_looseEqWith v w, ?_, looseEq_comm v w, looseEq_of_strictEq,
    looseEq_of_sameKind, eq_nullish_of_looseEq, ?_⟩
  · intro again other
    apply looseEqWith_congr
    intro a b hab
    rw [if_pos hab]
  · intro beyond k
    apply iterate_looseEqWith
    omega
  · intro hv x
    rw [looseEq_comm (number x)]
    exact ⟨looseEq_number hv x, looseEq_number hv x⟩

end ScriptMinifier.Primitive
