import Mathlib
import ScriptMinifier.Primitive.Operation
import ScriptMinifier.Proofs.SignedBits
import ScriptMinifier.Proofs.WholeDoubles

namespace ScriptMinifier

open Float.Model (UnpackedFloat)

namespace Number

open Exact (ofFloat towardZero)

variable {x : Float} {i : ℤ} {r : ℚ}

/-- The integer part of a number, toward zero; `0` for what has none. -/
def whole (x : Float) : ℤ := ((ofFloat x).value?.map towardZero).getD 0

theorem value?_zero : (ofFloat 0.0).value? = some 0 := by
  have hzero : ofFloat 0.0 = .finite false 0 0 := by decide
  simp [hzero, Exact.value?]

theorem value?_two31 : (ofFloat two31).value? = some ((2 ^ 31 : ℕ) : ℚ) := by
  have htwo31 : ofFloat two31 = .finite false (2 ^ 52) (-21) := by decide
  rw [htwo31, Exact.value?]
  norm_num

theorem value?_two32 : (ofFloat two32).value? = some ((2 ^ 32 : ℕ) : ℚ) := by
  have htwo32 : ofFloat two32 = .finite false (2 ^ 52) (-20) := by decide
  rw [htwo32, Exact.value?]
  norm_num

theorem abs_two32 : two32.abs = two32 := Exact.ofFloat_injective (by decide)

theorem value?_modulo (hx : (ofFloat x).value? = some (i : ℚ)) :
    (ofFloat (modulo x two32)).value? = some ((i % 2 ^ 32 : ℤ) : ℚ) := by
  have hr := Exact.value?_remainder hx value?_two32 (by decide) (by decide)
  have hlt : remainder x two32 < 0.0 ↔ i.tmod (2 ^ 32 : ℕ) < 0 := by
    rw [Exact.lt_iff_of_value? hr value?_zero]
    exact Int.cast_lt_zero
  have hparts := Int.mul_tdiv_add_tmod i (2 ^ 32 : ℕ)
  have hupper := Int.tmod_lt_of_pos i (by decide : (0 : ℤ) < (2 ^ 32 : ℕ))
  have hlower := Int.lt_tmod_of_pos i (by decide : (0 : ℤ) < (2 ^ 32 : ℕ))
  rw [modulo, abs_two32]
  by_cases hneg : i.tmod (2 ^ 32 : ℕ) < 0
  · have hmod : i % 2 ^ 32 = i.tmod (2 ^ 32 : ℕ) + (2 ^ 32 : ℕ) := by omega
    rw [if_pos (hlt.2 hneg), hmod]
    apply Exact.value?_add hr value?_two32
    · push_cast
      rfl
    · omega
  · have hmod : i % 2 ^ 32 = i.tmod (2 ^ 32 : ℕ) := by omega
    rw [if_neg (mt hlt.1 hneg), hmod, hr]

theorem isFinite_iff : x.isFinite = true ↔ ∃ r, (ofFloat x).value? = some r := by
  change x.toModel.unpack.isFinite = true ↔ _
  rw [ofFloat]
  cases x.toModel.unpack <;> simp [UnpackedFloat.isFinite, Exact.value?]

/-- The last double before the conversion without a sign. -/
theorem value?_residue (x : Float) :
    (ofFloat (residue x)).value? = some ((whole x % 2 ^ 32 : ℤ) : ℚ) := by
  rw [residue, whole]
  cases hx : (ofFloat x).value? with
  | none =>
    have hfinite : x.isFinite = false := by
      rw [Bool.eq_false_iff, ne_eq, isFinite_iff]
      simp [hx]
    rw [hfinite]
    exact value?_zero
  | some r =>
    have hzero := Exact.beq_iff_of_value? hx value?_zero
    rw [isFinite_iff.2 ⟨r, hx⟩, Bool.not_true, Bool.false_or, Option.map_some, Option.getD_some]
    by_cases hr : r = 0
    · rw [if_pos (hzero.2 hr), hr, ← Int.cast_zero, Exact.towardZero_intCast]
      exact value?_zero
    · rw [if_neg (mt hzero.1 hr)]
      exact value?_modulo (Exact.value?_truncate hx)

/-- The last double before the conversion with a sign. -/
theorem value?_signedResidue (x : Float) :
    (ofFloat (signedResidue x)).value? = some (((whole x).bmod (2 ^ 32) : ℤ) : ℚ) := by
  have hr := value?_residue x
  have hle : two31 ≤ residue x ↔ 2 ^ 31 ≤ whole x % 2 ^ 32 := by
    rw [Exact.le_iff_of_value? value?_two31 hr]
    exact_mod_cast Iff.rfl
  have hmod := Int.bmod_def (whole x) (2 ^ 32)
  rw [signedResidue]
  by_cases hhalf : 2 ^ 31 ≤ whole x % 2 ^ 32
  · have hbmod : (whole x).bmod (2 ^ 32) = whole x % 2 ^ 32 - 2 ^ 32 := by omega
    rw [if_pos (hle.2 hhalf), hbmod]
    apply Exact.value?_sub hr value?_two32
    · push_cast
      rfl
    · omega
  · have hbmod : (whole x).bmod (2 ^ 32) = whole x % 2 ^ 32 := by omega
    rw [if_neg (mt hle.1 hhalf), hbmod, hr]

theorem toNat_toUInt32 (x : Float) : ((toUInt32 x).toNat : ℤ) = whole x % 2 ^ 32 := by
  have hcut := Exact.toInt_of_value? (value?_residue x) 0 (UInt32.size - 1)
  rw [Exact.towardZero_intCast] at hcut
  have hlt : (whole x % 2 ^ 32).toNat < UInt32.size := by
    change _ < 2 ^ 32
    omega
  change ((UInt32.ofNatClamp
    ((residue x).toModel.unpack.toInt 0 (UInt32.size - 1)).toNat).toNat : ℤ) = _
  rw [hcut, UInt32.ofNatClamp, dif_pos hlt, UInt32.toNat_ofNatLT]
  omega

theorem toInt_toInt32 (x : Float) : (toInt32 x).toInt = (whole x).bmod (2 ^ 32) := by
  have hcut := Exact.toInt_of_value? (value?_signedResidue x) Int32.minValue.toInt
    Int32.maxValue.toInt
  rw [Exact.towardZero_intCast] at hcut
  have hlower : Int32.minValue.toInt ≤ (whole x).bmod (2 ^ 32) := by
    change -2 ^ 31 ≤ _
    have := Int.le_bmod (x := whole x) (m := 2 ^ 32) (by decide)
    omega
  have hupper : (whole x).bmod (2 ^ 32) ≤ Int32.maxValue.toInt := by
    change _ ≤ (2 ^ 31 - 1 : ℤ)
    have := Int.bmod_lt (x := whole x) (m := 2 ^ 32) (by decide)
    omega
  change (Int32.ofIntClamp ((signedResidue x).toModel.unpack.toInt Int32.minValue.toInt
    Int32.maxValue.toInt)).toInt = _
  rw [hcut, Int32.ofIntClamp, dif_pos hlower, dif_pos hupper, Int32.toInt_ofIntLE]

/-- The double is this integer, and a zero has no sign. -/
def IsInteger (x : Float) (i : ℤ) : Prop :=
  (ofFloat x).value? = some (i : ℚ) ∧ (isNegative x = true ↔ i < 0)

theorem isNegative_of_value? (h : (ofFloat x).value? = some r) (hr : r ≠ 0) :
    isNegative x = true ↔ r < 0 := by
  obtain ⟨negative, m, q, hx, -, -, rfl⟩ := Exact.exists_finite_of_value? h
  have hpos : (0 : ℚ) ≤ m * 2 ^ q := by positivity
  rw [isNegative, hx]
  cases negative with
  | false => simpa using hpos
  | true =>
    rw [Exact.signed_true, neg_ne_zero] at hr
    rw [Exact.signed_true, neg_lt_zero]
    exact iff_of_true rfl (hpos.lt_of_ne' hr)

/-- An integer of few digits is a double. -/
theorem isInteger_ofInt (h : i.natAbs < 2 ^ 53) : IsInteger (.ofModel (.ofInt i)) i := by
  have hvalue : (ofFloat (.ofModel (.ofInt i))).value? = some (i : ℚ) :=
    Exact.value?_of_rounds (Rounding.rounds_normalize i 0) (by positivity)
      (by rw [zpow_zero, mul_one, Exact.signed_natAbs]) h
  constructor
  · exact hvalue
  · by_cases hi : i = 0
    · subst hi
      decide
    · rw [isNegative_of_value? hvalue (by exact_mod_cast hi), Int.cast_lt_zero]

theorem isInteger_ofInt32 (n : Int32) : IsInteger (ofInt32 n) n.toInt := by
  have hlower := n.le_toInt
  have hupper := n.toInt_lt
  change IsInteger (.ofModel (.ofInt n.toInt)) _
  exact isInteger_ofInt (by omega)

theorem isInteger_toFloat (n : UInt32) : IsInteger n.toFloat n.toNat := by
  have hlt := n.toNat_lt
  change IsInteger (.ofModel (.ofInt n.toNat)) _
  exact isInteger_ofInt (by omega)

end Number

namespace Primitive

open Exact (ofFloat)
open Number (IsInteger residue signedResidue)

theorem toNat_shiftCount (v : Primitive) : v.shiftCount.toNat = v.toUint32 % 32 := by
  rw [shiftCount, UInt32.toNat_and]
  exact Nat.and_two_pow_sub_one_eq_mod _ 5

/-- The integer part of a value as a number. -/
def whole (v : Primitive) : ℤ := Number.whole v.toNumber

theorem toUint32_eq (v : Primitive) : (v.toUint32 : ℤ) = v.whole % 2 ^ 32 :=
  Number.toNat_toUInt32 v.toNumber

theorem toInt32_eq (v : Primitive) : v.toInt32 = v.whole.bmod (2 ^ 32) :=
  Number.toInt_toInt32 v.toNumber

theorem toInt32_congr (v : Primitive) : v.toInt32 ≡ v.whole [ZMOD 2 ^ 32] := by
  rw [toInt32_eq]
  exact Int.bmod_emod

theorem toUint32_congr (v : Primitive) : (v.toUint32 : ℤ) ≡ v.whole [ZMOD 2 ^ 32] := by
  rw [toUint32_eq]
  exact Int.mod_modEq v.whole (2 ^ 32)

/-- An operator answers with this integer. -/
def Yields (answer : Option Primitive) (i : ℤ) : Prop :=
  ∃ x, answer = some (number x) ∧ IsInteger x i

theorem yields_ofInt32 {n : Int32} {i : ℤ} (h : n.toInt = i) : Yields (some (ofInt32 n)) i := by
  rw [← h]
  exact ⟨Number.ofInt32 n, rfl, Number.isInteger_ofInt32 n⟩

theorem yields_toFloat {n : UInt32} {i : ℕ} (h : n.toNat = i) :
    Yields (some (number n.toFloat)) i := by
  rw [← h]
  exact ⟨n.toFloat, rfl, Number.isInteger_toFloat n⟩

/-- What is converted to 32 bits is a double that is exactly the outcome, the integer part modulo
`2 ^ 32`, and the bit operators answer as on these integers. -/
theorem word_laws (v w : Primitive) :
    ((v.toUint32 : ℤ) = v.whole % 2 ^ 32 ∧ -2 ^ 31 ≤ v.toInt32 ∧ v.toInt32 < 2 ^ 31 ∧
      v.toInt32 ≡ v.whole [ZMOD 2 ^ 32] ∧ v.toInt32 ≡ v.toUint32 [ZMOD 2 ^ 32]) ∧
    ((ofFloat (residue v.toNumber)).value? = some (v.toUint32 : ℚ) ∧
      (ofFloat (signedResidue v.toNumber)).value? = some (v.toInt32 : ℚ)) ∧
    w.shiftCount.toNat = w.toUint32 % 32 ∧
    Yields (UnaryOperator.bitNot.eval? v) (-v.toInt32 - 1) ∧
    Yields (BinaryOperator.bitOr.eval? v w) (Int.lor v.toInt32 w.toInt32) ∧
    Yields (BinaryOperator.bitAnd.eval? v w) (Int.land v.toInt32 w.toInt32) ∧
    Yields (BinaryOperator.bitXor.eval? v w) (Int.xor v.toInt32 w.toInt32) ∧
    Yields (BinaryOperator.shl.eval? v w)
      ((v.toInt32 * 2 ^ (w.toUint32 % 32)).bmod (2 ^ 32)) ∧
    Yields (BinaryOperator.shr.eval? v w) (v.toInt32 / 2 ^ (w.toUint32 % 32)) ∧
    Yields (BinaryOperator.ushr.eval? v w) (v.toUint32 / 2 ^ (w.toUint32 % 32) : ℕ) := by
  have hagree : v.toInt32 ≡ v.toUint32 [ZMOD 2 ^ 32] := v.toInt32_congr.trans v.toUint32_congr.symm
  have hresidue : (ofFloat (residue v.toNumber)).value? = some (v.toUint32 : ℚ) := by
    rw [Number.value?_residue, ← Int.cast_natCast, toUint32_eq]
    rfl
  have hsignedResidue : (ofFloat (signedResidue v.toNumber)).value? = some (v.toInt32 : ℚ) := by
    rw [Number.value?_signedResidue, toInt32_eq]
    rfl
  have hcount := toNat_shiftCount w
  have hlt : w.shiftCount.toNat < 32 := by omega
  have hshl := toInt_shiftLeft v.int32 hlt
  have hshr := toInt_shiftRight v.int32 hlt
  have hushr := toNat_shiftRight v.uint32 hlt
  rw [hcount] at hshl hshr hushr
  exact ⟨⟨v.toUint32_eq, v.int32.le_toInt, v.int32.toInt_lt, v.toInt32_congr, hagree⟩,
    ⟨hresidue, hsignedResidue⟩, hcount, yields_ofInt32 (toInt_not v.int32),
    yields_ofInt32 (toInt_or v.int32 w.int32), yields_ofInt32 (toInt_and v.int32 w.int32),
    yields_ofInt32 (toInt_xor v.int32 w.int32), yields_ofInt32 hshl, yields_ofInt32 hshr,
    yields_toFloat hushr⟩

-- The upper half stands for negative numbers, and a fraction is cut off toward zero.
example : (number 2147483648.5).toInt32 = -2 ^ 31 ∧ (number (-0.5)).toUint32 = 0 := by decide

end Primitive

end ScriptMinifier
