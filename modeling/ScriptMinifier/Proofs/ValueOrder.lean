import Mathlib
import ScriptMinifier.Proofs.DoubleOrder
import ScriptMinifier.Proofs.Opposites

namespace ScriptMinifier

namespace Text

variable {c d : Char} {as bs : List ℕ}

theorem charUnits_ne_nil (c : Char) : charUnits c ≠ [] := by
  unfold charUnits
  dsimp only
  split <;> simp

/-- No code point is a surrogate. -/
theorem toNat_valid (c : Char) : c.toNat < 0xD800 ∨ 0xDFFF < c.toNat ∧ c.toNat < 0x110000 := c.valid

/-- The first unit of a text tells whether a second one belongs to the same code point. -/
theorem charUnits_append_inj (h : charUnits c ++ as = charUnits d ++ bs) : c = d ∧ as = bs := by
  have hc := toNat_valid c
  have hd := toNat_valid d
  unfold charUnits at h
  dsimp only at h
  have heq : c.toNat = d.toNat ∧ as = bs := by
    by_cases hwide : c.toNat < 0x10000 <;> by_cases hwide' : d.toNat < 0x10000
    · simpa only [if_pos hwide, if_pos hwide', List.singleton_append, List.cons.injEq] using h
    · rw [if_pos hwide, if_neg hwide'] at h
      have hfirst := (List.cons.inj h).1
      omega
    · rw [if_neg hwide, if_pos hwide'] at h
      have hfirst := (List.cons.inj h).1
      omega
    · simp only [if_neg hwide, if_neg hwide', List.cons_append, List.nil_append,
        List.cons.injEq] at h
      exact ⟨by omega, h.2.2⟩
  exact ⟨Char.toNat_inj.1 heq.1, heq.2⟩

theorem flatMap_charUnits_injective : Function.Injective (List.flatMap charUnits) := by
  intro cs
  induction cs with
  | nil =>
    intro ds h
    cases ds with
    | nil => rfl
    | cons d ds => simp [charUnits_ne_nil] at h
  | cons c cs ih =>
    intro ds h
    cases ds with
    | nil => simp [charUnits_ne_nil] at h
    | cons d ds =>
      simp only [List.flatMap_cons] at h
      have hinj := charUnits_append_inj h
      rw [hinj.1, ih hinj.2]

theorem units_injective : Function.Injective units := by
  intro s t h
  exact String.toList_injective (flatMap_charUnits_injective h)

theorem unitsBefore_iff (as bs : List ℕ) : unitsBefore as bs = true ↔ as < bs := by
  induction as generalizing bs with
  | nil => cases bs <;> simp [unitsBefore]
  | cons a as ih => cases bs <;> simp [unitsBefore, List.cons_lt_cons_iff, ih]

end Text

namespace Primitive

variable {a b c : String} {v w : Primitive}

/-- Strings are ordered by their units. -/
theorem less?_string_iff :
    (string a).less? (string b) = some true ↔ Text.units a < Text.units b := by
  rw [less?, Option.some_inj, Text.unitsBefore_iff]

theorem strictEq_string_iff :
    (string a).strictEq (string b) = true ↔ Text.units a = Text.units b := by
  rw [strictEq, decide_eq_true_iff, Text.units_injective.eq_iff]

/-- Exactly one of three statements holds. -/
def ExactlyOne (p q r : Prop) : Prop := p ∧ ¬ q ∧ ¬ r ∨ ¬ p ∧ q ∧ ¬ r ∨ ¬ p ∧ ¬ q ∧ r

theorem exactlyOne_less? (a b : String) :
    ExactlyOne ((string a).less? (string b) = some true)
      ((string b).less? (string a) = some true) ((string a).strictEq (string b) = true) := by
  rw [less?_string_iff, less?_string_iff, strictEq_string_iff]
  rcases lt_trichotomy (Text.units a) (Text.units b) with h | h | h
  · exact .inl ⟨h, h.not_gt, h.ne⟩
  · exact .inr (.inr ⟨h.not_lt, h.not_gt, h⟩)
  · exact .inr (.inl ⟨h.not_gt, h, h.ne'⟩)

theorem less?_trans (hab : (string a).less? (string b) = some true)
    (hbc : (string b).less? (string c) = some true) :
    (string a).less? (string c) = some true := by
  rw [less?_string_iff] at hab hbc ⊢
  exact hab.trans hbc

/-- A value is before another as a number is or as a string is. -/
theorem before_of_less? (h : v.less? w = some true) :
    v.toNumber < w.toNumber ∨ ∃ a b, v = string a ∧ w = string b := by
  unfold less? at h
  split at h
  · exact .inr ⟨_, _, rfl, rfl⟩
  · left
    split at h
    · cases h
    · simpa using h

/-- Two values are not before each other. -/
theorem less?_asymm (h : v.less? w = some true) : w.less? v ≠ some true := by
  intro h'
  rcases before_of_less? h with hlt | ⟨a, b, rfl, rfl⟩
  · rcases before_of_less? h' with hlt' | ⟨a, b, rfl, rfl⟩
    · exact Exact.lt_asymm hlt hlt'
    · rw [less?_string_iff] at h h'
      exact lt_asymm h h'
  · rw [less?_string_iff] at h h'
    exact lt_asymm h h'

/-- What the four operators answer about two values. -/
structure Compared (v w : Primitive) (lt gt le ge : Bool) : Prop where
  lt : BinaryOperator.lt.eval? v w = some (boolean lt)
  gt : BinaryOperator.gt.eval? v w = some (boolean gt)
  le : BinaryOperator.le.eval? v w = some (boolean le)
  ge : BinaryOperator.ge.eval? v w = some (boolean ge)

/-- The operators answer `false` where there is no order. -/
theorem compared_of_none (h : v.less? w = none) : Compared v w false false false false := by
  have h' := less?_eq_none_comm.1 h
  constructor <;> simp [BinaryOperator.eval?, h, h']

/-- Where there is one, `<` and `>` ask for it and the other two deny these. -/
theorem compared_of_some {lt gt : Bool} (h : v.less? w = some lt) (h' : w.less? v = some gt) :
    Compared v w lt gt (!gt) (!lt) := by
  constructor <;> simp [BinaryOperator.eval?, h, h']

/-- Strings are in a strict total order. Two values are ordered both ways or neither way; if they
are not, the operators deny everything, and if they are, `>=` and `<=` are the negations of `<` and
`>`, which are not both true. -/
theorem order_laws (a b c : String) (v w : Primitive) :
    ExactlyOne ((string a).less? (string b) = some true)
      ((string b).less? (string a) = some true) ((string a).strictEq (string b) = true) ∧
    ((string a).less? (string b) = some true → (string b).less? (string c) = some true →
      (string a).less? (string c) = some true) ∧
    (v.less? w = none ↔ w.less? v = none) ∧
    (v.less? w = none → Compared v w false false false false) ∧
    (v.less? w ≠ none → ∃ lt gt, Compared v w lt gt (!gt) (!lt) ∧ ¬ (lt = true ∧ gt = true)) := by
  have hsome (h : v.less? w ≠ none) :
      ∃ lt gt, Compared v w lt gt (!gt) (!lt) ∧ ¬ (lt = true ∧ gt = true) := by
    obtain ⟨lt, hlt⟩ := Option.ne_none_iff_exists'.1 h
    obtain ⟨gt, hgt⟩ := Option.ne_none_iff_exists'.1 fun h' => h (less?_eq_none_comm.1 h')
    have hboth : ¬ (lt = true ∧ gt = true) := by
      intro hand
      rw [hand.1] at hlt
      rw [hand.2] at hgt
      exact less?_asymm hlt hgt
    exact ⟨lt, gt, compared_of_some hlt hgt, hboth⟩
  exact ⟨exactlyOne_less? a b, less?_trans, less?_eq_none_comm, compared_of_none, hsome⟩

-- A pair of surrogates comes before a unit above them, although its code point is greater.
example : (string "𝄞").less? (string "ﬀ") = some true := by decide

end Primitive

end ScriptMinifier
