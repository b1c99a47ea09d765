import Mathlib
import ScriptMinifier.Proofs.NumberText
import ScriptMinifier.Proofs.RadixLiterals

namespace ScriptMinifier.Number

open Rounding
open Decimal (IsLiteral)

variable {cs ds sign : List Char} {c mark : Char} {radix n : ℕ} {x : Float}

/-- A text, without blanks at its ends, that converts to a number. -/
inductive IsNumeral : List Char → Prop
  | empty : IsNumeral []
  | radix {mark : Char} {radix : ℕ} {ds : List Char} (hmark : (mark, radix) ∈ radixMarks)
      (hne : ds ≠ []) (hds : ∀ c ∈ ds, IsRadixDigit radix c) : IsNumeral ('0' :: mark :: ds)
  | infinity {sign : List Char} (hsign : sign ∈ [[], ['+'], ['-']]) :
      IsNumeral (sign ++ "Infinity".toList)
  | decimal {sign cs : List Char} (hsign : sign ∈ [[], ['+'], ['-']]) (hcs : IsLiteral cs) :
      IsNumeral (sign ++ cs)

theorem isNaN_iff : x.isNaN = true ↔ x = nan := by
  rw [Float.isNaN_eq_decide_eq_nan, decide_eq_true_eq]
  have hnan : (Float.nan : Float) = nan := rfl
  rw [hnan]

theorem isNaN_of_rounds {negative : Bool} {r : ℚ} (h : Rounds negative r x) : x.isNaN = false := by
  rw [← Bool.not_eq_true, isNaN_iff]
  rintro rfl
  exact h.ne_nan ofFloat_nan

theorem isNaN_of_gathers (h : Gathers radix n x) : x.isNaN = false := by
  obtain ⟨-, hx⟩ | ⟨m, j, h, hn, rfl, -⟩ | ⟨m, j, h, -, -, -, rfl, -⟩ := h
  · exact isNaN_of_rounds hx.rounds
  · exact isNaN_of_rounds (rounds_pack false h hn)
  · exact isNaN_of_rounds (rounds_pack false h (Shortest.value_mem m _))

theorem isNaN_neg_toFloat (d : Decimal) : (-1.0 * d.toFloat).isNaN = false := by
  obtain ⟨m, q, h, -, hx⟩ := d.rounds_toFloat
  rw [hx, sign_mul_pack ofFloat_neg_one h]
  exact isNaN_of_rounds (rounds_pack _ h (Shortest.value_mem m q))

theorem toNat_lt_of_digitValue (hc : digitValue c < 16) : c.toNat < 128 := by
  have hrange (hi : Char) (hhi : hi.toNat < 128) (h : c ≤ hi) : c.toNat < 128 := by
    rw [Char.le_def, UInt32.le_iff_toNat_le] at h
    exact h.trans_lt hhi
  unfold digitValue isDigit at hc
  split_ifs at hc with h h' h''
  · exact hrange '9' (by decide) (of_decide_eq_true (Bool.and_eq_true_iff.1 h).2)
  · exact hrange 'z' (by decide) (of_decide_eq_true (Bool.and_eq_true_iff.1 h').2)
  · exact hrange 'Z' (by decide) (of_decide_eq_true (Bool.and_eq_true_iff.1 h'').2)
  · omega

/-- What has the value of a digit in a radix is one. -/
theorem isRadixDigit_iff (hradix : radix ≤ 16) : IsRadixDigit radix c ↔ digitValue c < radix := by
  refine ⟨fun h => h.digitValue_lt hradix, fun hc => ⟨digitValue c, hc, ?_⟩⟩
  have hascii : ∀ n < 128, digitValue (.ofNat n) < 16 →
      Char.ofNat n = (digitValue (.ofNat n)).digitChar ∨
        Char.ofNat n = (digitValue (.ofNat n)).digitChar.toUpper := by
    decide
  have hchar := hascii c.toNat (toNat_lt_of_digitValue (by omega))
  rw [Char.ofNat_toNat] at hchar
  exact hchar (by omega)

/-- Digits of the radix convert to a number, and nothing else does. -/
theorem isNaN_ofRadix (h : (mark, radix) ∈ radixMarks) :
    (ofRadix radix ds).isNaN = false ↔ ds ≠ [] ∧ ∀ c ∈ ds, IsRadixDigit radix c := by
  have hradix : radix ≤ 16 := by
    obtain ⟨b, -, hb, rfl⟩ := exists_bits h
    exact Nat.pow_le_pow_right (by decide : 0 < 2) hb
  constructor
  · intro hnumber
    by_contra hinvalid
    have hnan : (ds.isEmpty || ds.any fun c => radix ≤ digitValue c) = true := by
      by_contra hvalid
      refine hinvalid ?_
      simpa [isRadixDigit_iff hradix] using hvalid
    rw [ofRadix, hnan, if_pos rfl, isNaN_iff.2 rfl] at hnumber
    cases hnumber
  · rintro ⟨hne, hds⟩
    exact isNaN_of_gathers (gathers_ofRadix h hne hds)

theorem isNaN_ofUnsigned : (ofUnsigned cs).isNaN = false ↔
    cs = "Infinity".toList ∨ IsLiteral cs := by
  unfold ofUnsigned
  split_ifs with hinfinity
  · exact iff_of_true rfl (.inl hinfinity)
  · rw [← Decimal.isSome_parse?, or_iff_right hinfinity]
    cases hparse : Decimal.parse? cs with
    | none => exact iff_of_false (by rw [isNaN_iff.2 rfl]; decide) (by decide)
    | some d => exact iff_of_true (isNaN_of_rounds d.rounds_toFloat) rfl

theorem isNaN_neg_ofUnsigned : (-1.0 * ofUnsigned cs).isNaN = (ofUnsigned cs).isNaN := by
  unfold ofUnsigned
  split_ifs
  · rfl
  · split
    · rename_i d _
      rw [isNaN_neg_toFloat, isNaN_of_rounds d.rounds_toFloat]
    · rfl

theorem IsNumeral.of_isNaN_ofUnsigned (hsign : sign ∈ [[], ['+'], ['-']])
    (h : (ofUnsigned cs).isNaN = false) : IsNumeral (sign ++ cs) := by
  obtain rfl | hcs := isNaN_ofUnsigned.1 h
  · exact .infinity hsign
  · exact .decimal hsign hcs

theorem IsNumeral.of_isNaN_ofRadix (hmark : (mark, radix) ∈ radixMarks)
    (h : (ofRadix radix ds).isNaN = false) : IsNumeral ('0' :: mark :: ds) := by
  obtain ⟨hne, hds⟩ := (isNaN_ofRadix hmark).1 h
  exact .radix hmark hne hds

/-- What converts to a number is exactly a numeral. -/
theorem isNaN_ofTrimmed : (ofTrimmed cs).isNaN = false ↔ IsNumeral cs := by
  constructor
  · intro h
    unfold ofTrimmed at h
    split at h
    case h_1 => exact .empty
    case h_8 => exact .of_isNaN_ofUnsigned (by decide : ['+'] ∈ _) h
    case h_9 => exact .of_isNaN_ofUnsigned (by decide : ['-'] ∈ _) (isNaN_neg_ofUnsigned ▸ h)
    case h_10 => exact .of_isNaN_ofUnsigned List.mem_cons_self h
    all_goals exact .of_isNaN_ofRadix (by decide) h
  · rintro (_ | ⟨hmark, hne, hds⟩ | hsign | ⟨hsign, hcs⟩)
    · rfl
    · rw [ofTrimmed_radix hmark, isNaN_ofRadix hmark]
      exact ⟨hne, hds⟩
    · obtain rfl | rfl | rfl := Decimal.eq_of_mem_signs hsign <;> rfl
    · have hnumber := isNaN_ofUnsigned.2 (.inr hcs)
      obtain rfl | rfl | rfl := Decimal.eq_of_mem_signs hsign
      · rwa [List.nil_append, ofTrimmed_literal hcs]
      · exact hnumber
      · exact isNaN_neg_ofUnsigned.trans hnumber

end ScriptMinifier.Number
