import Mathlib
import ScriptMinifier.Number.Literal
import ScriptMinifier.Proofs.Rounding

namespace ScriptMinifier

open Float.Model (Format)
open Shortest (interval)

namespace Rounding

variable {m n k : ℕ} {e q : ℤ} {r : ℚ} {x : Float}

/-- Regular parts of a number with a mantissa that is not too wide. -/
theorem exists_regular (hn : n < 2 ^ 53) (hp : -1022 ≤ e) (hp' : e ≤ 971) :
    ∃ m q, Regular m q ∧ q ≤ 971 ∧ (n * 2 ^ e : ℚ) = m * 2 ^ q := by
  rcases Nat.eq_zero_or_pos n with rfl | hpos
  · exact ⟨0, -1074, ⟨by decide, le_rfl, .inr rfl⟩, by decide, by simp⟩
  · have hlog := (Nat.log2_lt hpos.ne').2 hn
    obtain ⟨hlow, hhigh⟩ := (Nat.log2_eq_iff hpos.ne').1 (rfl : n.log2 = n.log2)
    obtain ⟨k, hk⟩ : ∃ k, n.log2 + k = 52 := ⟨52 - n.log2, by omega⟩
    refine ⟨n * 2 ^ k, e - k, ⟨?_, by omega, .inl ?_⟩, by omega, (mul_two_pow n k e).symm⟩
    · calc n * 2 ^ k < 2 ^ (n.log2 + 1) * 2 ^ k :=
          Nat.mul_lt_mul_of_pos_right hhigh (Nat.two_pow_pos k)
        _ = 2 ^ 53 := by rw [← pow_add, show n.log2 + 1 + k = 53 by omega]
    · calc 2 ^ 52 = 2 ^ n.log2 * 2 ^ k := by rw [← pow_add, hk]
        _ ≤ n * 2 ^ k := Nat.mul_le_mul_right _ hlow

/-- What a number with such a mantissa rounds to is the number. -/
theorem Rounds.holds_of_lt {negative : Bool} (h : Rounds negative (n * 2 ^ e) x) (hn : n < 2 ^ 53)
    (hp : -1022 ≤ e) (hp' : e ≤ 971) : Holds negative (n * 2 ^ e) x := by
  obtain ⟨m, q, hregular, hq, hvalue⟩ := exists_regular hn hp hp'
  rw [hvalue] at h ⊢
  have hexact := holds_pack negative hregular hq
  rwa [h.unique hexact.rounds]

theorem holds_toFloat (hn : n < 2 ^ 53) : Holds false n n.toUInt64.toFloat := by
  have hbits : n.toUInt64.toNat = n := UInt64.toNat_ofNat_of_lt (show n < 2 ^ 64 by omega)
  have hunpacked : Float.Model.UnpackedFloat.ofUInt64 .binary64 n.toUInt64 =
      Float.Model.UnpackedFloat.normalize .binary64 n 0 .positive := by
    rw [Float.Model.UnpackedFloat.ofUInt64, hbits]
    rfl
  change Holds false n (.ofModel (.pack (Float.Model.UnpackedFloat.ofUInt64 .binary64 n.toUInt64)))
  have hrounds := rounds_normalize n 0
  rw [decide_eq_false (by omega), Int.natAbs_natCast] at hrounds
  rw [hunpacked]
  simpa using hrounds.holds_of_lt hn (by decide) (by decide)

/-- The powers of ten that are doubles. -/
theorem ofFloat_powersOfTen :
    ∀ k : Fin 23, Exact.ofFloat Float.exactlyRepresentablePowersOfTen[k] =
      .finite false (5 ^ k.val * 2 ^ (52 - (5 ^ k.val).log2))
        (k.val - (52 - (5 ^ k.val).log2 : ℕ)) := by
  decide

theorem holds_powersOfTen (hk : k < 23) :
    Holds false (10 ^ k) (Float.exactlyRepresentablePowersOfTen[k]) := by
  have hexact := ofFloat_powersOfTen ⟨k, hk⟩
  have hne : 5 ^ k * 2 ^ (52 - (5 ^ k).log2) ≠ 0 := by positivity
  obtain ⟨hregular, hq, hpack⟩ := Exact.eq_pack_of_ofFloat hexact hne
  refine ⟨_, _, hregular, hq, ?_, hpack⟩
  rw [mul_two_pow]
  push_cast
  rw [zpow_natCast, ← mul_pow]
  norm_num

theorem ofFloat_infinity : Exact.ofFloat (.ofModel (.pack (.infinity .positive))) =
    .infinite false := by
  decide

/-- A number that is too great rounds to the infinity. -/
theorem rounds_infinity (hm : Exact.overflow ≤ m) :
    Rounds false m (.ofModel (.pack (.infinity .positive))) := by
  have hm0 : m ≠ 0 := by
    rintro rfl
    have hpos : 0 < Exact.overflow := by norm_num [Exact.overflow]
    simp only [Nat.cast_zero] at hm
    linarith
  obtain ⟨n, q, hregular, hr, -⟩ := rounds_round false hm0 0
  rw [zpow_zero, mul_one] at hr
  have hq : ¬ q ≤ 971 := fun hq => ((Exact.lt_overflow_iff hregular hr).2 hq).not_ge hm
  refine ⟨n, q, hregular, hr, Exact.ofFloat_injective ?_⟩
  rw [ofFloat_infinity, Exact.ofFloat_pack hregular, Exact.double,
    if_neg (Exact.ne_zero_of_lt hregular (by omega)), if_neg hq]

/-- A number up to half of the least double rounds to zero. -/
theorem rounds_zero (hr : 0 ≤ r) (hr' : r ≤ 2 ^ (-1075 : ℤ)) :
    Rounds false r (.ofModel (.pack (.zero .positive))) := by
  refine ⟨0, -1074, ⟨by decide, le_rfl, .inr rfl⟩, ?_, rfl⟩
  refine (Shortest.Interval.mem_iff_of_closed rfl).2 ⟨?_, ?_⟩
  · simpa [Shortest.Interval.lower, interval] using hr
  · rw [Shortest.upper_eq]
    rw [Shortest.two_mul_place (by omega : (-1075 : ℤ) = -1074 - 2 + 1)] at hr'
    simpa using hr'

theorem ten_zpow_le_two_zpow (he : e ≤ 0) : (10 : ℚ) ^ e ≤ 2 ^ e := by
  obtain ⟨k, rfl⟩ : ∃ k : ℕ, e = -k := ⟨(-e).toNat, by omega⟩
  rw [zpow_neg, zpow_neg, zpow_natCast, zpow_natCast]
  gcongr
  norm_num

theorem overflow_le_ten_pow (hk : 1024 ≤ k) : Exact.overflow ≤ 10 ^ k :=
  calc Exact.overflow ≤ 2 ^ 53 * 2 ^ 971 := by
        rw [Exact.overflow]
        gcongr
        norm_num
    _ = 2 ^ 1024 := (pow_add 2 53 971).symm
    _ ≤ 2 ^ k := pow_le_pow_right₀ (by norm_num) hk
    _ ≤ 10 ^ k := by gcongr; norm_num

/-- The conversion that goes through wider mantissas. -/
theorem rounds_model (m : ℕ) (e : ℤ) :
    Rounds false (m * 10 ^ e) (.ofModel (Float.Model.ofScientific m e)) := by
  change Rounds _ _ (.ofModel (.pack (Float.Model.UnpackedFloat.ofScientific .binary64 m e)))
  unfold Float.Model.UnpackedFloat.ofScientific
  split_ifs with hm hhuge htiny he
  · rw [hm, Nat.cast_zero, zero_mul]
    exact rounds_zero le_rfl (by positivity)
  · change (2 ^ 11 : ℤ) < e at hhuge
    obtain ⟨k, rfl⟩ := Int.eq_ofNat_of_zero_le (by omega : 0 ≤ e)
    have hpos : (1 : ℚ) ≤ m := by exact_mod_cast Nat.pos_of_ne_zero hm
    have hoverflow : Exact.overflow ≤ (m * 10 ^ k : ℕ) := by
      push_cast
      exact (overflow_le_ten_pow (by omega)).trans (le_mul_of_one_le_left (by positivity) hpos)
    have hrounds := rounds_infinity hoverflow
    push_cast at hrounds
    rwa [zpow_natCast]
  · change e < -((2 ^ 11 : ℤ) + m.log2) at htiny
    refine rounds_zero (by positivity) ?_
    have hlt : (m : ℚ) ≤ 2 ^ (m.log2 + 1) := by exact_mod_cast Nat.lt_log2_self.le
    calc (m * 10 ^ e : ℚ) ≤ 2 ^ (m.log2 + 1) * 2 ^ e := by
          gcongr
          exact ten_zpow_le_two_zpow (by omega)
      _ = 2 ^ ((m.log2 + 1 : ℕ) + e) := by rw [zpow_add₀ (by norm_num), zpow_natCast]
      _ ≤ 2 ^ (-1075 : ℤ) := zpow_le_zpow_right₀ (by norm_num) (by push_cast; omega)
  · obtain ⟨k, rfl⟩ := Int.eq_ofNat_of_zero_le he
    have hvalue : (m * 10 ^ (k : ℤ) : ℚ) = (m <<< 53 * 10 ^ k : ℕ) * 2 ^ (-(53 : ℕ) + 0 : ℤ) := by
      rw [Nat.shiftLeft_eq, zpow_natCast, add_zero, zpow_neg, zpow_natCast]
      push_cast
      ring
    have hm' : m <<< 53 ≠ 0 := by simpa using hm
    have hwide : 2 ^ 52 ≤ m <<< 53 := by
      rw [Nat.shiftLeft_eq]
      omega
    have hpos : 0 < 10 ^ k := Nat.pow_pos (by decide)
    have hlog : 52 ≤ (m <<< 53 * 10 ^ k).log2 :=
      (Nat.le_log2 (Nat.mul_ne_zero hm' hpos.ne')).2
        (hwide.trans (Nat.le_mul_of_pos_right (m <<< 53) hpos))
    rw [hvalue]
    exact rounds_roundWithAccuracy false (.inl hlog) (approximates_exact _ _)
  · have hvalue : (m * 10 ^ e : ℚ) = m * 2 ^ (0 : ℤ) / ((10 ^ (-e).toNat : ℕ) * 2 ^ (0 : ℤ)) := by
      rw [zpow_zero, mul_one, mul_one]
      push_cast
      rw [← zpow_natCast, Int.toNat_of_nonneg (by omega), zpow_neg, div_inv_eq_mul]
    rw [hvalue]
    exact rounds_div (Nat.pos_of_ne_zero hm) (Nat.pow_pos (by decide)) 0 0 false false

theorem rounds_ofScientific (m : ℕ) (negative : Bool) (k : ℕ) :
    Rounds false (m * 10 ^ (if negative then -k else k : ℤ)) (Float.ofScientific m negative k) := by
  rw [Float.ofScientific]
  by_cases h : m < 2 ^ 53 ∧ k ≤ 22
  · rw [dif_pos h]
    have hpower := holds_powersOfTen (Nat.lt_succ_of_le h.2)
    cases negative with
    | false =>
      change Rounds false (m * 10 ^ (k : ℤ)) (m.toUInt64.toFloat * _)
      rw [zpow_natCast]
      exact (holds_toFloat h.1).mul hpower
    | true =>
      change Rounds false (m * 10 ^ (-k : ℤ)) (m.toUInt64.toFloat / _)
      rw [zpow_neg, zpow_natCast, ← div_eq_mul_inv]
      exact (holds_toFloat h.1).div hpower (by positivity)
  · rw [dif_neg h]
    cases negative with
    | false => exact rounds_model m k
    | true =>
      change Rounds false (m * 10 ^ (-k : ℤ))
        (.ofModel (Float.Model.ofScientific m (Int.negOfNat k)))
      rw [Int.negOfNat_eq]
      exact rounds_model m (-k)

end Rounding

open Rounding

/-- A decimal is converted to the double that it rounds to. -/
theorem Decimal.rounds_toFloat (d : Decimal) : Rounds false d.value d.toFloat := by
  have hrounds := rounds_ofScientific d.digits (d.exponent < 0) d.exponent.natAbs
  have hexponent : (if decide (d.exponent < 0) = true then -(d.exponent.natAbs : ℤ)
      else d.exponent.natAbs) = d.exponent := by
    split_ifs with h <;> simp only [decide_eq_true_eq] at h <;> omega
  rwa [hexponent] at hrounds

/-- What rounds to a double is converted to it. -/
theorem Decimal.toFloat_of_mem {d : Decimal} {m : ℕ} {q : ℤ} (h : Regular m q)
    (hd : d.value ∈ interval m q) : d.toFloat = Exact.pack false m q :=
  d.rounds_toFloat.unique (rounds_pack false h hd)

/-- Whole numbers that fit into a mantissa are doubles. -/
theorem Number.holds_ofNat {n : ℕ} (hn : n < 2 ^ 53) : Holds false n (Float.ofNat n) := by
  have hrounds := rounds_ofScientific n false 0
  have hvalue : (n * 10 ^ (if false then -(0 : ℕ) else (0 : ℕ) : ℤ) : ℚ) = n * 2 ^ (0 : ℤ) := by
    simp
  rw [hvalue] at hrounds
  change Rounds false (n * 2 ^ (0 : ℤ)) (Float.ofNat n) at hrounds
  simpa using hrounds.holds_of_lt hn (by decide) (by decide)

theorem Number.ofFloat_one : Exact.ofFloat 1.0 = .finite false (2 ^ 52) (-52) := by
  decide

theorem Number.ofFloat_neg_one : Exact.ofFloat (-1.0) = .finite true (2 ^ 52) (-52) := by
  decide

/-- A factor of one or minus one gives the sign. -/
theorem Number.sign_mul_pack {sign : Float} {negative negative' : Bool} {m : ℕ} {q : ℤ}
    (hsign : Exact.ofFloat sign = .finite negative' (2 ^ 52) (-52)) (h : Regular m q) :
    sign * Exact.pack negative m q = Exact.pack (negative' ^^ negative) m q := by
  obtain ⟨hone, hone', hpack⟩ := Exact.eq_pack_of_ofFloat hsign (by decide)
  rw [hpack]
  by_cases hq : q ≤ 971
  · have hproduct : Rounds (negative' ^^ negative) ((2 ^ 52 : ℕ) * 2 ^ (-52 : ℤ) * (m * 2 ^ q))
        (Exact.pack negative' (2 ^ 52) (-52) * Exact.pack negative m q) :=
      (holds_pack negative' hone hone').mul (holds_pack negative h hq)
    have hvalue : ((2 ^ 52 : ℕ) * 2 ^ (-52 : ℤ) * (m * 2 ^ q) : ℚ) = m * 2 ^ q := by
      norm_num
    rw [hvalue] at hproduct
    exact hproduct.unique (rounds_pack _ h (Shortest.value_mem m q))
  · rw [mul_eq, Exact.unpack_pack hone hone', Exact.unpack_pack_infinite h (by omega)]
    refine Exact.ofFloat_injective ?_
    rw [Exact.ofFloat_pack h, Exact.double, if_neg (Exact.ne_zero_of_lt h (by omega)), if_neg hq]
    cases negative <;> cases negative' <;> rfl

end ScriptMinifier
