import Mathlib
import ScriptMinifier.Number.Word
import ScriptMinifier.Proofs.Conversion
import ScriptMinifier.Proofs.DoubleOrder

namespace ScriptMinifier

open Float.Model (UnpackedFloat)
open Float.Model.UnpackedFloat (Sign decreaseExponent shiftToExponent)
open Rounding (Holds Rounds)

namespace Exact

variable {negative : Bool} {m n : ℕ} {q p e i : ℤ} {r s : ℚ} {x y : Float}

theorem value?_of_holds (h : Holds negative r x) :
    (ofFloat x).value? = some (signed negative r) := by
  obtain ⟨m, q, hm, hq, rfl, rfl⟩ := h
  exact value?_pack negative hm hq

/-- What rounds to a whole number of full width is this number. -/
theorem value?_of_rounds (h : Rounds negative r x) (hr : 0 ≤ r) (hvalue : signed negative r = i)
    (hi : i.natAbs < 2 ^ 53) : (ofFloat x).value? = some (i : ℚ) := by
  have hplace : r = i.natAbs * 2 ^ (0 : ℤ) := by
    rw [zpow_zero, mul_one, Nat.cast_natAbs, Int.cast_abs, ← hvalue]
    cases negative <;> simp [abs_of_nonneg hr]
  rw [hplace] at h
  rw [value?_of_holds (h.holds_of_lt hi (by decide) (by decide)), ← hplace, hvalue]

/-- A sum that is a whole number is exact. -/
theorem value?_add (hx : (ofFloat x).value? = some r) (hy : (ofFloat y).value? = some s)
    (h : r + s = i) (hi : i.natAbs < 2 ^ 53) : (ofFloat (x + y)).value? = some (i : ℚ) := by
  obtain ⟨a, m, q, hm, hq, rfl, rfl⟩ := Number.exists_pack_of_value? hx
  obtain ⟨b, n, p, hn, hp, rfl, rfl⟩ := Number.exists_pack_of_value? hy
  obtain ⟨sum, t, hvalue, ht, -, hrounds⟩ :=
    (Rounding.holds_pack a hm hq).add_signed (Rounding.holds_pack b hn hp)
  exact value?_of_rounds hrounds ht (hvalue.trans h) hi

theorem sub_parts (a b : Bool) (m n : ℕ) (q p : ℤ) :
    UnpackedFloat.sub .binary64 (parts a m q) (parts b n p) =
      UnpackedFloat.add .binary64 (parts a m q) (parts (!b) n p) := by
  have hneg : (sign !b) = -sign b := by cases b <;> rfl
  have happly (k : ℤ) : (sign !b).apply k = -(sign b).apply k := by
    cases b <;> simp [sign, Sign.apply]
  by_cases hm : m = 0
  · by_cases hn : n = 0
    · simp only [parts, hm, hn, dite_true, UnpackedFloat.sub, UnpackedFloat.add, hneg]
    · simp only [parts, hm, hn, dite_true, dite_false, UnpackedFloat.sub, UnpackedFloat.add, hneg]
  · by_cases hn : n = 0
    · simp only [parts, hm, hn, dite_true, dite_false, UnpackedFloat.sub, UnpackedFloat.add]
    · simp only [parts, hm, hn, dite_false, UnpackedFloat.sub, UnpackedFloat.add, happly,
        sub_eq_add_neg]

theorem sub_pack (a b : Bool) (hm : Regular m q) (hn : Regular n p) (hq : q ≤ 971) (hp : p ≤ 971) :
    pack a m q - pack b n p = pack a m q + pack (!b) n p := by
  rw [Rounding.add_eq, unpack_pack hm hq, unpack_pack hn hp, ← sub_parts, ← unpack_pack hm hq,
    ← unpack_pack hn hp]
  rfl

/-- A difference that is a whole number is exact. -/
theorem value?_sub (hx : (ofFloat x).value? = some r) (hy : (ofFloat y).value? = some s)
    (h : r - s = i) (hi : i.natAbs < 2 ^ 53) : (ofFloat (x - y)).value? = some (i : ℚ) := by
  obtain ⟨a, m, q, hm, hq, rfl, rfl⟩ := Number.exists_pack_of_value? hx
  obtain ⟨b, n, p, hn, hp, rfl, rfl⟩ := Number.exists_pack_of_value? hy
  rw [sub_pack a b hm hn hq hp]
  apply value?_add hx (value?_pack (!b) hn hp) _ hi
  rw [signed_not, ← sub_eq_add_neg, h]

/-- A number without its fraction. -/
def towardZero (r : ℚ) : ℤ := if r < 0 then ⌈r⌉ else ⌊r⌋

@[simp] theorem towardZero_intCast (i : ℤ) : towardZero i = i := by
  simp [towardZero]

theorem towardZero_signed (negative : Bool) (hr : 0 ≤ r) :
    towardZero (signed negative r) = (sign negative).apply ⌊r⌋ := by
  cases negative with
  | false =>
    rw [signed_false, towardZero, if_neg hr.not_gt]
    rfl
  | true =>
    rw [signed_true, towardZero]
    rcases hr.eq_or_lt with rfl | hpos
    · simp [sign, Sign.apply]
    · rw [if_pos (neg_lt_zero.2 hpos), Int.ceil_neg]
      rfl

/-- A magnitude without its fraction. -/
theorem floor_magnitude (m : ℕ) (q : ℤ) :
    ⌊(m * 2 ^ q : ℚ)⌋ = (m <<< q.toNat / 2 ^ (-q).toNat : ℕ) := by
  rw [Nat.shiftLeft_eq]
  rcases le_total 0 q with hq | hq
  · obtain ⟨k, rfl⟩ := Int.eq_ofNat_of_zero_le hq
    have hfloor : (m * 2 ^ (k : ℤ) : ℚ) = (m * 2 ^ k : ℕ) := by
      push_cast
      rfl
    rw [hfloor, Int.floor_natCast]
    simp
  · obtain ⟨k, rfl⟩ := Int.exists_eq_neg_ofNat hq
    have hfloor : (m * 2 ^ (-k : ℤ) : ℚ) = (m : ℕ) / (2 ^ k : ℕ) := by
      rw [zpow_neg, zpow_natCast]
      push_cast
      rfl
    rw [hfloor, Rat.floor_natCast_div_natCast]
    simp

/-- A conversion to an integer cuts the fraction off. -/
theorem toInt_of_value? (h : (ofFloat x).value? = some r) (low high : ℤ) :
    x.toModel.unpack.toInt low high = towardZero r := by
  obtain ⟨a, m, q, hm, hq, rfl, hr⟩ := Number.exists_pack_of_value? h
  have hsigned : r = signed a (m * 2 ^ q) := hr
  rw [unpack_pack hm hq, hsigned, towardZero_signed a (by positivity), floor_magnitude]
  by_cases hm0 : m = 0
  · subst hm0
    rw [parts, dif_pos rfl]
    cases a <;> simp [UnpackedFloat.toInt, sign, Sign.apply]
  · rw [parts, dif_neg hm0]
    have hmantissa : (shiftToExponent (m <<< q.toNat) (q - q.toNat) .exact 0).1.mantissa =
        m <<< q.toNat / 2 ^ (-q).toNat := by
      rw [shiftToExponent, Rounding.mantissa_shiftRight, Rounding.mantissa_ofMantissaAndAccuracy]
      congr 2
      omega
    rw [← hmantissa]
    simp [UnpackedFloat.toInt, UnpackedFloat.roundToInt, decreaseExponent]

theorem exists_finite_of_value? (h : (ofFloat x).value? = some r) :
    ∃ negative m q, ofFloat x = finite negative m q ∧ m < 2 ^ 53 ∧ q ≤ 971 ∧
      r = signed negative (m * 2 ^ q) := by
  obtain ⟨negative, m, q, hm, hq, rfl, rfl⟩ := Number.exists_pack_of_value? h
  rw [ofFloat_pack hm, double]
  by_cases hm0 : m = 0
  · rw [if_pos hm0, hm0]
    exact ⟨negative, 0, 0, rfl, by decide, by decide, by simp⟩
  · rw [if_neg hm0, if_pos hq]
    exact ⟨negative, m, q, rfl, hm.lt, hq, rfl⟩

/-- An exact number becomes the double with the same value, if its digits fit. -/
theorem value?_toFloat (negative : Bool) (h : (m * 2 ^ q : ℚ) = n * 2 ^ e) (hn : n < 2 ^ 53)
    (he : -1022 ≤ e) (he' : e ≤ 971) :
    (ofFloat (finite negative m q).toFloat).value? = some (signed negative (n * 2 ^ e)) := by
  by_cases hm : m = 0
  · have htoFloat : (finite negative m q).toFloat = pack negative 0 (-1074) := by
      rw [toFloat, if_pos hm]
      rfl
    rw [← h, htoFloat, hm, Nat.cast_zero, zero_mul]
    exact value?_of_holds (Rounding.holds_zero negative)
  · have htoFloat : (finite negative m q).toFloat =
        .ofModel (.pack (UnpackedFloat.round .binary64 (sign negative) m q)) := by
      rw [toFloat, if_neg hm]
      rfl
    have hrounds := Rounding.rounds_round negative hm q
    rw [h] at hrounds
    rw [htoFloat]
    exact value?_of_holds (hrounds.holds_of_lt hn he he')

theorem value?_truncate (h : (ofFloat x).value? = some r) :
    (ofFloat (Number.truncate x)).value? = some (towardZero r : ℚ) := by
  obtain ⟨negative, m, q, hx, hm, hq, rfl⟩ := exists_finite_of_value? h
  rw [Number.truncate, hx, integral, towardZero_signed negative (by positivity), cast_apply,
    floor_magnitude]
  split
  · obtain ⟨k, rfl⟩ := Int.eq_ofNat_of_zero_le ‹0 ≤ q›
    rw [value?_toFloat negative rfl hm (by omega) hq]
    simp [Nat.shiftLeft_eq]
  · have hq' : q.toNat = 0 := by omega
    have hle : m >>> (-q).toNat < 2 ^ 53 := by
      rw [Nat.shiftRight_eq_div_pow]
      exact (Nat.div_le_self _ _).trans_lt hm
    rw [value?_toFloat negative rfl hle (by decide) (by decide), Nat.shiftRight_eq_div_pow, hq']
    simp only [Nat.shiftLeft_zero, zpow_zero, mul_one, Int.cast_natCast]

/-- A remainder does not depend on the unit in which both sides are counted. -/
theorem mod_place {k l : ℕ} (hm : (m * 2 ^ e : ℚ) = k) (hn : (n * 2 ^ e : ℚ) = l) :
    ((m % n : ℕ) * 2 ^ e : ℚ) = (k % l : ℕ) := by
  rcases le_total 0 e with he | he
  · obtain ⟨d, rfl⟩ := Int.eq_ofNat_of_zero_le he
    have hk : k = m * 2 ^ d := by exact_mod_cast hm.symm
    have hl : l = n * 2 ^ d := by exact_mod_cast hn.symm
    rw [hk, hl, Nat.mul_mod_mul_right]
    push_cast
    rfl
  · obtain ⟨d, rfl⟩ := Int.exists_eq_neg_ofNat he
    rw [zpow_neg, zpow_natCast, ← div_eq_mul_inv] at hm hn ⊢
    rw [div_eq_iff (by positivity)] at hm hn ⊢
    have hm' : m = k * 2 ^ d := by exact_mod_cast hm
    have hn' : n = l * 2 ^ d := by exact_mod_cast hn
    rw [hm', hn', Nat.mul_mod_mul_right]
    push_cast
    rfl

theorem apply_tmod (negative : Bool) (m n : ℕ) :
    ((sign negative).apply m).tmod n = (sign negative).apply (m % n : ℕ) := by
  cases negative with
  | false => rfl
  | true => exact Int.neg_tmod m n

/-- The remainder of whole numbers, with the sign of the first. -/
theorem value?_remainder (hx : (ofFloat x).value? = some (i : ℚ))
    (hy : (ofFloat y).value? = some (n : ℚ)) (hn : n ≠ 0) (hlt : n < 2 ^ 53) :
    (ofFloat (Number.remainder x y)).value? = some ((i.tmod n : ℤ) : ℚ) := by
  obtain ⟨a, m, q, hx, -, -, hi⟩ := exists_finite_of_value? hx
  obtain ⟨b, l, p, hy, -, -, hl⟩ := exists_finite_of_value? hy
  have hpos : (0 : ℚ) < n := by exact_mod_cast Nat.pos_of_ne_zero hn
  have hvalue : (l * 2 ^ p : ℚ) = n := by
    cases b with
    | false => rw [hl, signed_false]
    | true =>
      have hneg : (0 : ℚ) ≤ l * 2 ^ p := by positivity
      rw [signed_true] at hl
      linarith
  have hl0 : l ≠ 0 := by
    intro hl0
    rw [hl0, Nat.cast_zero, zero_mul] at hvalue
    exact hpos.ne hvalue
  have habs : (m * 2 ^ q : ℚ) = i.natAbs := by
    rw [Nat.cast_natAbs, Int.cast_abs, hi]
    cases a <;> simp [abs_of_nonneg, abs_mul]
  have hsign : i = (sign a).apply i.natAbs := by
    rw [habs, ← Int.cast_natCast, ← cast_apply] at hi
    exact_mod_cast hi
  have hmod : (((m <<< (q - min q p).toNat) % (l <<< (p - min q p).toNat) : ℕ) : ℚ) *
      2 ^ min q p = (i.natAbs % n : ℕ) * 2 ^ (0 : ℤ) := by
    rw [zpow_zero, mul_one]
    exact mod_place ((Rounding.cast_decreased (min_le_left q p)).trans habs)
      ((Rounding.cast_decreased (min_le_right q p)).trans hvalue)
  have hdigits : i.natAbs % n < 2 ^ 53 := (Nat.mod_lt _ (Nat.pos_of_ne_zero hn)).trans hlt
  rw [Number.remainder, hx, hy, remainder, if_neg hl0]
  dsimp only
  rw [value?_toFloat a hmod hdigits (by decide) (by decide), zpow_zero, mul_one, hsign, apply_tmod,
    cast_apply, ← hsign, Int.cast_natCast]

end Exact

end ScriptMinifier
