import Mathlib
import ScriptMinifier.Proofs.Nearest

namespace ScriptMinifier

open Float.Model (Format totalExponent)
open Float.Model.UnpackedFloat (Accuracy ExtendedMantissa Sign shiftToExponent shiftToTargetExponent
  roundWithAccuracy decreaseExponent)
open Shortest (interval)

namespace Rounding

variable {em : ExtendedMantissa} {acc : Accuracy} {negative : Bool} {m k : ℕ} {e q : ℤ} {r s : ℚ}

/-- A mantissa and the bit after it, in halves of its last place. -/
def halves (em : ExtendedMantissa) : ℕ := 2 * em.mantissa + em.roundBit.toNat

/-- The number that was cut to a mantissa with this exponent: a count of halves, or between two. -/
def Approximates (em : ExtendedMantissa) (e : ℤ) (r : ℚ) : Prop :=
  if em.stickyBit then halves em * 2 ^ (e - 1) < r ∧ r < (halves em + 1) * 2 ^ (e - 1)
  else r = halves em * 2 ^ (e - 1)

theorem halves_shiftRightOne (em : ExtendedMantissa) : halves em.shiftRightOne = em.mantissa := by
  have hbit : (em.mantissa % 2 != 0).toNat = em.mantissa % 2 := by
    rcases Nat.mod_two_eq_zero_or_one em.mantissa with h | h <;> simp [h]
  have hdiv := Nat.div_add_mod em.mantissa 2
  change 2 * (em.mantissa / 2) + (em.mantissa % 2 != 0).toNat = em.mantissa
  omega

/-- What is cut off is kept in the bits. -/
theorem Approximates.shiftRightOne (h : Approximates em e r) :
    Approximates em.shiftRightOne (e + 1) r := by
  have hplace : (2 : ℚ) ^ (e + 1 - 1) = 2 * 2 ^ (e - 1) := Shortest.two_mul_place (by omega)
  have hpos : (0 : ℚ) < 2 ^ (e - 1) := by positivity
  unfold Approximates at h ⊢
  rw [halves_shiftRightOne, hplace]
  obtain ⟨m, round, sticky⟩ := em
  cases round <;> cases sticky <;>
    simp only [halves, ExtendedMantissa.shiftRightOne, Bool.or_false, Bool.or_true, Bool.toNat_true,
      Bool.toNat_false, Bool.false_eq_true, if_true, if_false] at h ⊢ <;> push_cast at h
  · linarith
  · constructor <;> linarith
  · constructor <;> linarith
  · constructor <;> linarith

theorem Approximates.shiftRight (h : Approximates em e r) (k : ℕ) :
    Approximates (em >>> k) (e + k) r := by
  induction k with
  | zero =>
    rw [Int.natCast_zero, Int.add_zero]
    exact h
  | succ k ih =>
    have hexponent : e + (k + 1 : ℕ) = e + k + 1 := by push_cast; ring
    rw [hexponent]
    exact ih.shiftRightOne

theorem mantissa_shiftRight (em : ExtendedMantissa) (k : ℕ) :
    (em >>> k).mantissa = em.mantissa / 2 ^ k := by
  induction k with
  | zero => exact (Nat.div_one _).symm
  | succ k ih =>
    change (em >>> k).mantissa / 2 = _
    rw [ih, Nat.div_div_eq_div_mul, pow_succ]

theorem mantissa_ofMantissaAndAccuracy (m : ℕ) (acc : Accuracy) :
    (ExtendedMantissa.ofMantissaAndAccuracy m acc).mantissa = m := by
  rcases acc with _ | (_ | _ | _) <;> rfl

theorem approximates_exact (m : ℕ) (e : ℤ) :
    Approximates (.ofMantissaAndAccuracy m .exact) e (m * 2 ^ e) := by
  change (m * 2 ^ e : ℚ) = ((2 * m + 0 : ℕ) : ℚ) * 2 ^ (e - 1)
  rw [Shortest.two_mul_place (by omega : e = e - 1 + 1)]
  push_cast
  ring

/-- The mantissa is not above the number. -/
theorem Approximates.mantissa_le (h : Approximates em e r) :
    4 * em.mantissa * (2 : ℚ) ^ (e - 2) ≤ r := by
  have hpos : (0 : ℚ) < 2 ^ (e - 2) := by positivity
  have hhalves : (2 * em.mantissa : ℚ) ≤ halves em := by
    rw [halves]
    push_cast
    linarith [em.roundBit.toNat.cast_nonneg (α := ℚ)]
  have hmul : 2 * em.mantissa * (2 * (2 : ℚ) ^ (e - 2)) ≤ halves em * (2 * 2 ^ (e - 2)) := by gcongr
  unfold Approximates at h
  rw [Shortest.two_mul_place (by omega : e - 1 = e - 2 + 1)] at h
  split at h <;> linarith

/-- The rounded mantissa is half a place away at most, and less if it is odd. -/
theorem Approximates.roundedMantissa (h : Approximates em e r) :
    (4 * em.roundedMantissa - 2 : ℚ) * 2 ^ (e - 2) ≤ r ∧
      r ≤ (4 * em.roundedMantissa + 2) * 2 ^ (e - 2) ∧
      (em.roundedMantissa % 2 ≠ 0 → (4 * em.roundedMantissa - 2 : ℚ) * 2 ^ (e - 2) < r ∧
        r < (4 * em.roundedMantissa + 2) * 2 ^ (e - 2)) := by
  have hpos : (0 : ℚ) < 2 ^ (e - 2) := by positivity
  unfold Approximates at h
  rw [Shortest.two_mul_place (by omega : e - 1 = e - 2 + 1)] at h
  obtain ⟨m, round, sticky⟩ := em
  cases round <;> cases sticky
  case false.false =>
    have hrounded : (⟨m, false, false⟩ : ExtendedMantissa).roundedMantissa = m := rfl
    change r = ((2 * m + 0 : ℕ) : ℚ) * _ at h
    rw [hrounded]
    push_cast at h
    exact ⟨by linarith, by linarith, fun _ => ⟨by linarith, by linarith⟩⟩
  case false.true =>
    have hrounded : (⟨m, false, true⟩ : ExtendedMantissa).roundedMantissa = m := rfl
    change ((2 * m + 0 : ℕ) : ℚ) * _ < r ∧ r < (((2 * m + 0 : ℕ) : ℚ) + 1) * _ at h
    rw [hrounded]
    push_cast at h
    exact ⟨by linarith, by linarith, fun _ => ⟨by linarith, by linarith⟩⟩
  case true.true =>
    have hrounded : (⟨m, true, true⟩ : ExtendedMantissa).roundedMantissa = m + 1 := rfl
    change ((2 * m + 1 : ℕ) : ℚ) * _ < r ∧ r < (((2 * m + 1 : ℕ) : ℚ) + 1) * _ at h
    rw [hrounded]
    push_cast at h ⊢
    exact ⟨by linarith, by linarith, fun _ => ⟨by linarith, by linarith⟩⟩
  case true.false =>
    -- Halfway the even one of the two is taken.
    have hrounded : (⟨m, true, false⟩ : ExtendedMantissa).roundedMantissa = m + m % 2 := rfl
    have heven : (m + m % 2) % 2 = 0 := by omega
    change r = ((2 * m + 1 : ℕ) : ℚ) * _ at h
    rw [hrounded]
    refine ⟨?_, ?_, fun hodd => absurd heven hodd⟩ <;>
    rcases Nat.mod_two_eq_zero_or_one m with hm | hm <;> rw [hm] <;> push_cast at h ⊢ <;> linarith

theorem roundedMantissa_le (em : ExtendedMantissa) :
    em.mantissa ≤ em.roundedMantissa ∧ em.roundedMantissa ≤ em.mantissa + 1 := by
  obtain ⟨m, round, sticky⟩ := em
  cases round <;> cases sticky
  · exact ⟨le_rfl, Nat.le_succ m⟩
  · exact ⟨le_rfl, Nat.le_succ m⟩
  · change m ≤ m + m % 2 ∧ m + m % 2 ≤ m + 1
    omega
  · exact ⟨Nat.le_succ m, le_rfl⟩

/-- The rounded mantissa is that of the double that the number rounds to. -/
theorem Approximates.mem_interval (h : Approximates em e r)
    (hwide : 2 ^ 52 ≤ em.mantissa ∨ e = -1074) : r ∈ interval em.roundedMantissa e := by
  have hpos : (0 : ℚ) < 2 ^ (e - 2) := by positivity
  obtain ⟨hlower, hupper, hstrict⟩ := h.roundedMantissa
  have hcut := h.mantissa_le
  have hle := roundedMantissa_le em
  generalize em.roundedMantissa = n at *
  rcases Nat.eq_zero_or_pos n with rfl | hn
  · refine (Shortest.Interval.mem_iff_of_closed rfl).2 ⟨?_, ?_⟩
    · have hzero : (0 : ℚ) ≤ 4 * em.mantissa * 2 ^ (e - 2) := by positivity
      simpa [Shortest.Interval.lower, interval] using hzero.trans hcut
    · rwa [Shortest.upper_eq]
  by_cases hdense : n = 2 ^ 52 ∧ -1074 < e
  · obtain ⟨rfl, he⟩ := hdense
    have hmantissa : em.mantissa = 2 ^ 52 := by
      have := hwide.resolve_right (by omega)
      omega
    refine (Shortest.Interval.mem_iff_of_closed (Shortest.closed_iff.2 (by decide))).2 ⟨?_, ?_⟩
    · rw [Shortest.lower_eq hn, if_pos ⟨rfl, he⟩]
      rw [hmantissa] at hcut
      linarith
    · rwa [Shortest.upper_eq]
  · have hlower' : (interval n e).lower = (4 * n - 2) * 2 ^ (e - 2) := by
      rw [Shortest.lower_eq hn, if_neg hdense]
    by_cases heven : n % 2 = 0
    · rw [Shortest.Interval.mem_iff_of_closed (Shortest.closed_iff.2 heven), hlower',
        Shortest.upper_eq]
      exact ⟨hlower, hupper⟩
    · have hopen : (interval n e).closed = false := by simpa [interval] using heven
      rw [Shortest.Interval.mem_iff_of_open hopen, hlower', Shortest.upper_eq]
      exact hstrict heven

/-- A mantissa that gets too wide by rounding is that of the least double with the next exponent. -/
theorem Approximates.mem_interval_next (h : Approximates em e r) (he : -1074 ≤ e)
    (hn : em.roundedMantissa = 2 ^ 53) : r ∈ interval (2 ^ 52) (e + 1) := by
  obtain ⟨hlower, hupper, -⟩ := h.roundedMantissa
  have hplace : (2 : ℚ) ^ (e + 1 - 2) = 2 * 2 ^ (e - 2) := Shortest.two_mul_place (by omega)
  have hpos : (0 : ℚ) < 2 ^ (e - 2) := by positivity
  rw [hn] at hlower hupper
  push_cast at hlower hupper
  refine (Shortest.Interval.mem_iff_of_closed (Shortest.closed_iff.2 (by decide))).2 ⟨?_, ?_⟩
  · rw [Shortest.lower_eq (by decide), if_pos ⟨rfl, by omega⟩, hplace]
    push_cast
    linarith
  · rw [Shortest.upper_eq, hplace]
    push_cast
    linarith

theorem targetExponent_eq (m : ℕ) (e : ℤ) :
    Format.binary64.targetExponent (totalExponent m e) = max (m.log2 + e - 52) (-1074) := by
  change max ((m.log2 : ℤ) + 1 + e - (1 + 52 : ℕ)) (3 - 2 ^ 10 - (1 + 52 : ℕ)) = _
  omega

theorem shiftToTargetExponent_eq (acc : Accuracy)
    (hk : Format.binary64.targetExponent (totalExponent m e) = e + k) :
    shiftToTargetExponent .binary64 m e acc =
      (ExtendedMantissa.ofMantissaAndAccuracy m acc >>> k, e + k) := by
  rw [shiftToTargetExponent, hk, shiftToExponent, show e + k - e = (k : ℤ) by omega]
  rfl

/-- The first shift cuts the mantissa to its full width, or to the least exponent. -/
theorem exists_cut (hplaced : 52 ≤ m.log2 ∨ e ≤ -1074)
    (h : Approximates (.ofMantissaAndAccuracy m acc) e r) :
    ∃ em q, shiftToTargetExponent .binary64 m e acc = (em, q) ∧ Approximates em q r ∧
      -1074 ≤ q ∧ em.mantissa < 2 ^ 53 ∧ (2 ^ 52 ≤ em.mantissa ∨ q = -1074) := by
  obtain ⟨k, hk⟩ : ∃ k : ℕ, max (m.log2 + e - 52) (-1074) = e + k :=
    ⟨(max (m.log2 + e - 52) (-1074) - e).toNat, by omega⟩
  have hmantissa : (ExtendedMantissa.ofMantissaAndAccuracy m acc >>> k).mantissa = m / 2 ^ k := by
    rw [mantissa_shiftRight, mantissa_ofMantissaAndAccuracy]
  refine ⟨_, _, shiftToTargetExponent_eq acc ((targetExponent_eq m e).trans hk), h.shiftRight k,
    by omega, ?_, ?_⟩
  · rw [hmantissa, Nat.div_lt_iff_lt_mul (Nat.two_pow_pos k), ← pow_add]
    exact Nat.lt_log2_self.trans_le (Nat.pow_le_pow_right (by decide) (by omega))
  · by_cases hleast : e + k = -1074
    · exact .inr hleast
    · left
      have hm : m ≠ 0 := by
        rintro rfl
        rw [Nat.log2_zero] at hplaced hk
        omega
      rw [hmantissa, Nat.le_div_iff_mul_le (Nat.two_pow_pos k), ← pow_add]
      exact (Nat.pow_le_pow_right (by decide) (by omega)).trans (Nat.log2_self_le hm)

/-- Rounding gives regular parts of the double that the number rounds to. -/
theorem exists_regular_roundWithAccuracy (negative : Bool) (hplaced : 52 ≤ m.log2 ∨ e ≤ -1074)
    (h : Approximates (.ofMantissaAndAccuracy m acc) e r) :
    ∃ n q, Regular n q ∧ r ∈ interval n q ∧
      roundWithAccuracy .binary64 (Exact.sign negative) m e acc = Exact.parts negative n q := by
  obtain ⟨em, q, hfirst, hcut, hq, hlt, hwide⟩ := exists_cut hplaced h
  have hrounded := roundedMantissa_le em
  rw [roundWithAccuracy, hfirst]
  by_cases hn : em.roundedMantissa < 2 ^ 53
  · have hplace : max (em.roundedMantissa.log2 + q - 52) (-1074) = q := by
      rcases Nat.eq_zero_or_pos em.roundedMantissa with hzero | hpos
      · rw [hzero, Nat.log2_zero]
        omega
      · have hhigh := (Nat.log2_lt hpos.ne').2 hn
        have hlow : 52 ≤ em.roundedMantissa.log2 ∨ q = -1074 :=
          hwide.imp_left fun h => (Nat.le_log2 hpos.ne').2 (h.trans hrounded.1)
        omega
    have hsecond := shiftToTargetExponent_eq .exact (k := 0)
      ((targetExponent_eq em.roundedMantissa q).trans (by omega))
    refine ⟨em.roundedMantissa, q, ⟨hn, hq, by omega⟩, hcut.mem_interval hwide, ?_⟩
    dsimp only
    rw [hsecond]
    simp only [Int.natCast_zero, Int.add_zero]
    rfl
  · have hcarry : em.roundedMantissa = 2 ^ 53 := by omega
    have hsecond := shiftToTargetExponent_eq .exact (k := 1)
      ((targetExponent_eq (2 ^ 53) q).trans (by rw [Nat.log2_two_pow]; omega))
    refine ⟨2 ^ 52, q + 1, ⟨by decide, by omega, .inl le_rfl⟩,
      hcut.mem_interval_next hq hcarry, ?_⟩
    dsimp only
    rw [hcarry, hsecond]
    rfl

/-- The double is the one that a number, with this sign, rounds to. -/
def Rounds (negative : Bool) (r : ℚ) (x : Float) : Prop :=
  ∃ m q, Regular m q ∧ r ∈ interval m q ∧ x = Exact.pack negative m q

/-- The double is the number with this sign. -/
def Holds (negative : Bool) (r : ℚ) (x : Float) : Prop :=
  ∃ m q, Regular m q ∧ q ≤ 971 ∧ r = m * 2 ^ q ∧ x = Exact.pack negative m q

variable {x y : Float} {negative' : Bool}

theorem holds_pack (negative : Bool) (h : Regular m q) (hq : q ≤ 971) :
    Holds negative (m * 2 ^ q) (Exact.pack negative m q) :=
  ⟨m, q, h, hq, rfl, rfl⟩

theorem rounds_pack (negative : Bool) (h : Regular m q) (hr : r ∈ interval m q) :
    Rounds negative r (Exact.pack negative m q) :=
  ⟨m, q, h, hr, rfl⟩

theorem Holds.rounds (h : Holds negative r x) : Rounds negative r x := by
  obtain ⟨m, q, hregular, -, rfl, rfl⟩ := h
  exact ⟨m, q, hregular, Shortest.value_mem m q, rfl⟩

theorem Rounds.unique (hx : Rounds negative r x) (hy : Rounds negative r y) : x = y := by
  obtain ⟨m, q, hm, hr, rfl⟩ := hx
  obtain ⟨n, p, hn, hr', rfl⟩ := hy
  obtain ⟨rfl, rfl⟩ := Shortest.eq_of_mem hm hn hr hr'
  rfl

theorem Rounds.isNearest (h : Rounds false r x) (hr : 0 ≤ r) : Number.IsNearest r x := by
  obtain ⟨m, q, hregular, hmem, rfl⟩ := h
  exact Number.isNearest_pack hregular hmem hr

theorem Rounds.ne_nan (h : Rounds negative r x) : Exact.ofFloat x ≠ .nan := by
  obtain ⟨m, q, hregular, -, rfl⟩ := h
  rw [Exact.ofFloat_pack hregular, Exact.double]
  split_ifs <;> simp

theorem holds_zero (negative : Bool) : Holds negative 0 (Exact.pack negative 0 (-1074)) :=
  ⟨0, -1074, ⟨by decide, le_rfl, .inr rfl⟩, by decide, by simp, rfl⟩

theorem rounds_roundWithAccuracy (negative : Bool) (hplaced : 52 ≤ m.log2 ∨ e ≤ -1074)
    (h : Approximates (.ofMantissaAndAccuracy m acc) e r) :
    Rounds negative r
      (.ofModel (.pack (roundWithAccuracy .binary64 (Exact.sign negative) m e acc))) := by
  obtain ⟨n, q, hregular, hr, hparts⟩ := exists_regular_roundWithAccuracy negative hplaced h
  exact ⟨n, q, hregular, hr, by rw [hparts]; rfl⟩

theorem log2_mul_two_pow (hm : m ≠ 0) (k : ℕ) : (m * 2 ^ k).log2 = m.log2 + k := by
  induction k with
  | zero => simp
  | succ k ih =>
    have hne : m * 2 ^ k ≠ 0 := Nat.mul_ne_zero hm (Nat.two_pow_pos k).ne'
    rw [pow_succ', Nat.mul_left_comm, Nat.log2_two_mul hne, ih, Nat.add_assoc]

theorem mul_two_pow (m k : ℕ) (e : ℤ) : ((m * 2 ^ k : ℕ) * 2 ^ (e - k) : ℚ) = m * 2 ^ e := by
  rw [zpow_sub₀ (by norm_num), zpow_natCast]
  push_cast
  field_simp

theorem rounds_round (negative : Bool) (hm : m ≠ 0) (e : ℤ) : Rounds negative (m * 2 ^ e)
    (.ofModel (.pack (Float.Model.UnpackedFloat.round .binary64 (Exact.sign negative) m e))) := by
  rw [Float.Model.UnpackedFloat.round, decreaseExponent, targetExponent_eq, Nat.shiftLeft_eq]
  dsimp only
  obtain ⟨k, hk⟩ : ∃ k : ℕ, (e - max (m.log2 + e - 52) (-1074)).toNat = k := ⟨_, rfl⟩
  rw [hk, ← mul_two_pow m k e]
  refine rounds_roundWithAccuracy negative ?_ (approximates_exact _ _)
  rw [log2_mul_two_pow hm]
  omega

theorem sign_mul (a b : Bool) : Exact.sign a * Exact.sign b = Exact.sign (a ^^ b) := by
  cases a <;> cases b <;> rfl

theorem sign_div (a b : Bool) : Exact.sign a / Exact.sign b = Exact.sign (a ^^ b) := by
  cases a <;> cases b <;> rfl

theorem mul_eq (x y : Float) : x * y = .ofModel (.pack
    (Float.Model.UnpackedFloat.mul .binary64 x.toModel.unpack y.toModel.unpack)) := rfl

theorem div_eq (x y : Float) : x / y = .ofModel (.pack
    (Float.Model.UnpackedFloat.div .binary64 x.toModel.unpack y.toModel.unpack)) := rfl

theorem add_eq (x y : Float) : x + y = .ofModel (.pack
    (Float.Model.UnpackedFloat.add .binary64 x.toModel.unpack y.toModel.unpack)) := rfl

/-- A product is rounded once. -/
theorem Holds.mul (hx : Holds negative r x) (hy : Holds negative' s y) :
    Rounds (negative ^^ negative') (r * s) (x * y) := by
  obtain ⟨m, q, hm, hq, rfl, rfl⟩ := hx
  obtain ⟨n, p, hn, hp, rfl, rfl⟩ := hy
  rw [mul_eq, Exact.unpack_pack hm hq, Exact.unpack_pack hn hp]
  by_cases hzero : m = 0 ∨ n = 0
  · have hproduct : (m * 2 ^ q * (n * 2 ^ p) : ℚ) = 0 := by
      rcases hzero with rfl | rfl <;> simp
    have hparts : Float.Model.UnpackedFloat.mul .binary64 (Exact.parts negative m q)
        (Exact.parts negative' n p) = Exact.parts (negative ^^ negative') 0 (-1074) := by
      rw [Exact.parts, Exact.parts, Exact.parts, dif_pos rfl, ← sign_mul]
      by_cases hm0 : m = 0
      · rw [dif_pos hm0]
        split <;> rfl
      · rw [dif_neg hm0, dif_pos (hzero.resolve_left hm0)]
        rfl
    rw [hproduct, hparts]
    exact (holds_zero _).rounds
  · obtain ⟨hm0, hn0⟩ := not_or.1 hzero
    have hvalue : (m * 2 ^ q * (n * 2 ^ p) : ℚ) = (m * n : ℕ) * 2 ^ (q + p) := by
      rw [zpow_add₀ (by norm_num)]
      push_cast
      ring
    rw [Exact.parts, dif_neg hm0, Exact.parts, dif_neg hn0, hvalue]
    change Rounds _ _
      (.ofModel (.pack (roundWithAccuracy .binary64 (_ * _) (m * n) (q + p) .exact)))
    rw [sign_mul]
    refine rounds_roundWithAccuracy _ ?_ (approximates_exact _ _)
    have hle := Nat.le_mul_of_pos_right m (Nat.pos_of_ne_zero hn0)
    have hle' := Nat.le_mul_of_pos_left n (Nat.pos_of_ne_zero hm0)
    rw [Nat.le_log2 (Nat.mul_ne_zero hm0 hn0)]
    have hfull := hm.full
    have hfull' := hn.full
    omega

/-- A mantissa that has a sign is rounded once. -/
theorem rounds_normalize (k e : ℤ) : Rounds (decide (k < 0)) (k.natAbs * 2 ^ e)
    (.ofModel (.pack (Float.Model.UnpackedFloat.normalize .binary64 k e .positive))) := by
  rcases lt_trichotomy k 0 with hk | rfl | hk
  · have hnat : (-k).toNat = k.natAbs := by omega
    rw [Float.Model.UnpackedFloat.normalize, compare_lt_iff_lt.2 hk, hnat, decide_eq_true hk]
    exact rounds_round true (by omega) e
  · rw [Int.natAbs_zero, Nat.cast_zero, zero_mul]
    exact (holds_zero false).rounds
  · have hnat : k.toNat = k.natAbs := by omega
    rw [Float.Model.UnpackedFloat.normalize, compare_gt_iff_gt.2 hk, hnat,
      decide_eq_false hk.not_gt]
    exact rounds_round false (by omega) e

/-- A mantissa that is taken to a lesser exponent. -/
theorem cast_decreased (h : e ≤ q) : (((m <<< (q - e).toNat : ℕ) : ℚ) * 2 ^ e) = m * 2 ^ q := by
  rw [Nat.shiftLeft_eq, ← mul_two_pow m (q - e).toNat q]
  congr 2
  omega

/-- A sum is rounded once, and it has a sign only if one of the two sides has. -/
theorem Holds.add_signed (hx : Holds negative r x) (hy : Holds negative' s y) :
    ∃ sum t, Exact.signed sum t = Exact.signed negative r + Exact.signed negative' s ∧ 0 ≤ t ∧
      (sum = true → negative = true ∨ negative' = true) ∧ Rounds sum t (x + y) := by
  obtain ⟨m, q, hm, hq, rfl, rfl⟩ := hx
  obtain ⟨n, p, hn, hp, rfl, rfl⟩ := hy
  rw [add_eq, Exact.unpack_pack hm hq, Exact.unpack_pack hn hp]
  by_cases hm0 : m = 0
  · by_cases hn0 : n = 0
    · have hparts : Float.Model.UnpackedFloat.add .binary64 (Exact.parts negative m q)
          (Exact.parts negative' n p) = Exact.parts (negative && negative') 0 (-1074) := by
        rw [Exact.parts, dif_pos hm0, Exact.parts, dif_pos hn0]
        cases negative <;> cases negative' <;> rfl
      rw [hparts]
      exact ⟨negative && negative', 0, by simp [hm0, hn0], le_rfl,
        fun h => .inl (Bool.and_eq_true_iff.1 h).1, (holds_zero _).rounds⟩
    · have hparts : Float.Model.UnpackedFloat.add .binary64 (Exact.parts negative m q)
          (Exact.parts negative' n p) = Exact.parts negative' n p := by
        rw [Exact.parts, dif_pos hm0, Exact.parts, dif_neg hn0]
        rfl
      rw [hparts]
      exact ⟨negative', n * 2 ^ p, by simp [hm0], by positivity, .inr,
        rounds_pack negative' hn (Shortest.value_mem n p)⟩
  by_cases hn0 : n = 0
  · have hparts : Float.Model.UnpackedFloat.add .binary64 (Exact.parts negative m q)
        (Exact.parts negative' n p) = Exact.parts negative m q := by
      rw [Exact.parts, dif_neg hm0, Exact.parts, dif_pos hn0]
      rfl
    rw [hparts]
    exact ⟨negative, m * 2 ^ q, by simp [hn0], by positivity, .inl,
      rounds_pack negative hm (Shortest.value_mem m q)⟩
  -- Both mantissas are taken to the lesser exponent.
  obtain ⟨k, hk⟩ : ∃ k : ℤ, k = (Exact.sign negative).apply (m <<< (q - min q p).toNat : ℕ) +
    (Exact.sign negative').apply (n <<< (p - min q p).toNat : ℕ) := ⟨_, rfl⟩
  have hparts : Float.Model.UnpackedFloat.add .binary64 (Exact.parts negative m q)
      (Exact.parts negative' n p) =
      Float.Model.UnpackedFloat.normalize .binary64 k (min q p) .positive := by
    rw [Exact.parts, dif_neg hm0, Exact.parts, dif_neg hn0, hk]
    rfl
  have hvalue : Exact.signed (decide (k < 0)) (k.natAbs * 2 ^ min q p) =
      Exact.signed negative (m * 2 ^ q) + Exact.signed negative' (n * 2 ^ p) := by
    rw [Exact.signed_mul, Exact.signed_natAbs, hk, Int.cast_add, Exact.cast_apply,
      Exact.cast_apply, add_mul, ← Exact.signed_mul, ← Exact.signed_mul, Int.cast_natCast,
      Int.cast_natCast, cast_decreased (min_le_left q p), cast_decreased (min_le_right q p)]
  have hsign (h : decide (k < 0) = true) : negative = true ∨ negative' = true := by
    cases negative with
    | true => exact .inl rfl
    | false =>
      cases negative' with
      | true => exact .inr rfl
      | false =>
        have hpos : 0 ≤ k := hk ▸ Int.add_nonneg (Int.natCast_nonneg _) (Int.natCast_nonneg _)
        exact absurd (of_decide_eq_true h) hpos.not_gt
  rw [hparts]
  exact ⟨_, _, hvalue, by positivity, hsign, rounds_normalize k (min q p)⟩

/-- A sum of numbers that are not negative. -/
theorem Holds.add (hx : Holds false r x) (hy : Holds false s y) : Rounds false (r + s) (x + y) := by
  obtain ⟨sum, t, hvalue, -, hsign, hrounds⟩ := hx.add_signed hy
  cases sum with
  | true => simp at hsign
  | false =>
    rw [Exact.signed_false, Exact.signed_false, Exact.signed_false] at hvalue
    rwa [hvalue] at hrounds

/-- The accuracy of a fraction tells its number from a mantissa before it. -/
theorem approximates_fraction (d : ℕ) {rest n : ℕ} (hrest : rest < n) (e : ℤ) :
    Approximates
      (.ofMantissaAndAccuracy d (Float.Model.UnpackedFloat.accuracyOfFraction rest n)) e
      ((d + rest / n) * 2 ^ e) := by
  have hn' : (0 : ℚ) < n := by exact_mod_cast Nat.zero_lt_of_lt hrest
  have hpos : (0 : ℚ) < 2 ^ (e - 1) := by positivity
  have hlt : (rest / n : ℚ) < 1 := by
    rw [div_lt_one hn']
    exact_mod_cast hrest
  rw [Shortest.two_mul_place (by omega : e = e - 1 + 1),
    Float.Model.UnpackedFloat.accuracyOfFraction]
  by_cases hzero : rest = 0
  · rw [if_pos hzero, hzero]
    change (d + (0 : ℕ) / n : ℚ) * _ = ((2 * d + 0 : ℕ) : ℚ) * _
    push_cast
    ring
  rw [if_neg hzero]
  have hfraction : (0 : ℚ) < rest / n := by positivity
  obtain hless | hequal | hgreater := Nat.lt_trichotomy (2 * rest) n
  · have hhalf : (rest / n : ℚ) < 1 / 2 := by
      rw [div_lt_div_iff₀ hn' (by norm_num)]
      exact_mod_cast (by omega : rest * 2 < 1 * n)
    have hlow := mul_pos hfraction hpos
    have hhigh := mul_lt_mul_of_pos_right hhalf hpos
    rw [Nat.compare_eq_lt.2 hless]
    change ((2 * d + 0 : ℕ) : ℚ) * _ < _ ∧ _ < (((2 * d + 0 : ℕ) : ℚ) + 1) * _
    push_cast
    constructor <;> linarith
  · have hhalf : (rest / n : ℚ) = 1 / 2 := by
      rw [div_eq_div_iff hn'.ne' (by norm_num)]
      exact_mod_cast (by omega : rest * 2 = 1 * n)
    rw [Nat.compare_eq_eq.2 hequal, hhalf]
    change _ = ((2 * d + 1 : ℕ) : ℚ) * _
    push_cast
    ring
  · have hhalf : (1 / 2 : ℚ) < rest / n := by
      rw [div_lt_div_iff₀ (by norm_num) hn']
      exact_mod_cast (by omega : 1 * n < rest * 2)
    have hlow := mul_lt_mul_of_pos_right hhalf hpos
    have hhigh := mul_lt_mul_of_pos_right hlt hpos
    rw [Nat.compare_eq_gt.2 hgreater]
    change ((2 * d + 1 : ℕ) : ℚ) * _ < _ ∧ _ < (((2 * d + 1 : ℕ) : ℚ) + 1) * _
    push_cast
    constructor <;> linarith

/-- The quotient of mantissas, with what is left of it, tells the quotient of two numbers. -/
theorem approximates_quotient (m : ℕ) {n : ℕ} (hn : 0 < n) (e : ℤ) :
    Approximates
      (.ofMantissaAndAccuracy (m / n) (Float.Model.UnpackedFloat.accuracyOfFraction (m % n) n)) e
      (m / n * 2 ^ e) := by
  have hquotient : (m / n : ℚ) = (m / n : ℕ) + (m % n : ℕ) / n := by
    have hdiv : (m : ℚ) = n * (m / n : ℕ) + (m % n : ℕ) := by
      exact_mod_cast (Nat.div_add_mod m n).symm
    rw [hdiv]
    field_simp
  rw [hquotient]
  exact approximates_fraction (m / n) (Nat.mod_lt m hn) e

/-- A quotient is rounded once. -/
theorem rounds_div {m n : ℕ} (hm : 0 < m) (hn : 0 < n) (q p : ℤ) (a b : Bool) :
    Rounds (a ^^ b) (m * 2 ^ q / (n * 2 ^ p)) (.ofModel (.pack
      (Float.Model.UnpackedFloat.div .binary64 (.finite (Exact.sign a) m q hm)
        (.finite (Exact.sign b) n p hn)))) := by
  have htarget : Format.binary64.targetExponent (totalExponent m q - totalExponent n p) =
      max (m.log2 + q - (n.log2 + p) - 53) (-1074) := by
    change max ((m.log2 : ℤ) + 1 + q - (n.log2 + 1 + p) - (1 + 52 : ℕ))
      (3 - 2 ^ 10 - (1 + 52 : ℕ)) = _
    omega
  obtain ⟨e, he⟩ : ∃ e, min (q - p) (max (m.log2 + q - (n.log2 + p) - 53) (-1074)) = e := ⟨_, rfl⟩
  obtain ⟨k, hk⟩ : ∃ k : ℕ, (q - p - e).toNat = k := ⟨_, rfl⟩
  have hvalue : (m * 2 ^ q / (n * 2 ^ p) : ℚ) = (m * 2 ^ k : ℕ) / n * 2 ^ e := by
    have hshift := mul_two_pow m k (q - p)
    rw [show q - p - (k : ℤ) = e by omega] at hshift
    rw [div_mul_eq_mul_div, hshift, zpow_sub₀ (by norm_num)]
    field_simp
  have hcore : Float.Model.UnpackedFloat.divCore .binary64 m q n p = (m * 2 ^ k / n, e,
      Float.Model.UnpackedFloat.accuracyOfFraction (m * 2 ^ k % n) n) := by
    rw [Float.Model.UnpackedFloat.divCore, htarget, he, hk, Nat.shiftLeft_eq]
  change Rounds _ _ (.ofModel (.pack (roundWithAccuracy .binary64 (Exact.sign a / Exact.sign b)
    (Float.Model.UnpackedFloat.divCore .binary64 m q n p).1
    (Float.Model.UnpackedFloat.divCore .binary64 m q n p).2.1
    (Float.Model.UnpackedFloat.divCore .binary64 m q n p).2.2)))
  rw [hcore, hvalue, sign_div]
  refine rounds_roundWithAccuracy _ ?_ (approximates_quotient _ hn e)
  by_cases hleast : e ≤ -1074
  · exact .inr hleast
  · -- The dividend is shifted until the quotient has full width.
    left
    have hwide : 2 ^ 52 ≤ m * 2 ^ k / n := by
      rw [Nat.le_div_iff_mul_le hn]
      calc 2 ^ 52 * n ≤ 2 ^ 52 * 2 ^ (n.log2 + 1) := Nat.mul_le_mul_left _ Nat.lt_log2_self.le
        _ = 2 ^ (52 + (n.log2 + 1)) := (pow_add _ _ _).symm
        _ ≤ 2 ^ (m.log2 + k) := Nat.pow_le_pow_right (by decide) (by omega)
        _ = 2 ^ m.log2 * 2 ^ k := pow_add _ _ _
        _ ≤ m * 2 ^ k := Nat.mul_le_mul_right _ (Nat.log2_self_le hm.ne')
    exact (Nat.le_log2 (by omega)).2 hwide

theorem Holds.div (hx : Holds negative r x) (hy : Holds negative' s y) (hs : s ≠ 0) :
    Rounds (negative ^^ negative') (r / s) (x / y) := by
  obtain ⟨m, q, hm, hq, rfl, rfl⟩ := hx
  obtain ⟨n, p, hn, hp, rfl, rfl⟩ := hy
  have hn0 : n ≠ 0 := by
    rintro rfl
    simp at hs
  rw [div_eq, Exact.unpack_pack hm hq, Exact.unpack_pack hn hp]
  by_cases hm0 : m = 0
  · have hparts : Float.Model.UnpackedFloat.div .binary64 (Exact.parts negative m q)
        (Exact.parts negative' n p) = Exact.parts (negative ^^ negative') 0 (-1074) := by
      rw [Exact.parts, dif_pos hm0, Exact.parts, dif_neg hn0, Exact.parts, dif_pos rfl, ← sign_div]
      rfl
    rw [hparts, hm0, Nat.cast_zero, zero_mul, zero_div]
    exact (holds_zero _).rounds
  · rw [Exact.parts, dif_neg hm0, Exact.parts, dif_neg hn0]
    exact rounds_div _ _ q p negative negative'

end Rounding

end ScriptMinifier
