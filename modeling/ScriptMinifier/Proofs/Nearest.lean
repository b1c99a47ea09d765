import Mathlib
import ScriptMinifier.Proofs.Decimals
import ScriptMinifier.Proofs.Doubles

namespace ScriptMinifier

open Shortest

/-- The number that a decimal denotes. -/
def Decimal.value (d : Decimal) : ℚ := d.digits * 10 ^ d.exponent

namespace Shortest

namespace Interval

def lower (i : Interval) : ℚ := i.low * 2 ^ i.scale

def upper (i : Interval) : ℚ := i.high * 2 ^ i.scale

instance : Membership ℚ Interval where
  mem i r := if i.closed then i.lower ≤ r ∧ r ≤ i.upper else i.lower < r ∧ r < i.upper

variable {i : Interval} {r : ℚ} {c : ℕ} {k : ℤ}

theorem mem_iff_of_closed (h : i.closed = true) : r ∈ i ↔ i.lower ≤ r ∧ r ≤ i.upper := by
  change (if i.closed then _ else _) ↔ _
  rw [if_pos h]

theorem mem_iff_of_open (h : i.closed = false) : r ∈ i ↔ i.lower < r ∧ r < i.upper := by
  change (if i.closed then _ else _) ↔ _
  rw [if_neg (by simp [h])]

theorem le_of_mem (h : r ∈ i) : i.lower ≤ r ∧ r ≤ i.upper := by
  cases hclosed : i.closed with
  | true => exact (mem_iff_of_closed hclosed).1 h
  | false =>
    have hopen := (mem_iff_of_open hclosed).1 h
    exact ⟨hopen.1.le, hopen.2.le⟩

/-- What is strictly between its ends belongs to the interval. -/
theorem mem_of_lt (hlower : i.lower < r) (hupper : r < i.upper) : r ∈ i := by
  cases hclosed : i.closed with
  | true => exact (mem_iff_of_closed hclosed).2 ⟨hlower.le, hupper.le⟩
  | false => exact (mem_iff_of_open hclosed).2 ⟨hlower, hupper⟩

end Interval

variable {i : Interval} {r r' : ℚ} {c m m' : ℕ} {k q q' scale : ℤ}

theorem zpow_mul_pow_toNat {a : ℚ} (ha : a ≠ 0) (k : ℤ) : a ^ k * a ^ (-k).toNat = a ^ k.toNat := by
  rw [← zpow_natCast, ← zpow_natCast, ← zpow_add₀ ha]
  congr 1
  omega

/-- Quarters and steps of the grid are counted in one measure. -/
theorem exists_measure (scale k : ℤ) :
    ∃ p : ℚ, 0 < p ∧ (unit scale k : ℚ) = 2 ^ scale * p ∧ (grid scale k : ℚ) = 10 ^ k * p := by
  refine ⟨10 ^ (-k).toNat * 2 ^ (-scale).toNat, by positivity, ?_, ?_⟩
  · have hscale := zpow_mul_pow_toNat (a := 2) (by norm_num) scale
    rw [unit, Nat.shiftLeft_eq]
    push_cast [Nat.pow_eq]
    rw [← hscale]
    ring
  · have hk := zpow_mul_pow_toNat (a := 10) (by norm_num) k
    rw [grid, Nat.shiftLeft_eq]
    push_cast [Nat.pow_eq]
    rw [← hk]
    ring

/-- The test of the search for the shortest decimal. -/
theorem contains_iff : i.contains c k = true ↔ (c * 10 ^ k : ℚ) ∈ i := by
  obtain ⟨p, hp, hunit, hgrid⟩ := exists_measure i.scale k
  have hleft (a b : ℕ) : a * unit i.scale k ≤ b * grid i.scale k ↔
      (a * 2 ^ i.scale : ℚ) ≤ b * 10 ^ k := by
    rw [← Nat.cast_le (α := ℚ), Nat.cast_mul, Nat.cast_mul, hunit, hgrid, ← mul_assoc, ← mul_assoc]
    exact mul_le_mul_iff_of_pos_right hp
  have hright (a b : ℕ) : b * grid i.scale k ≤ a * unit i.scale k ↔
      (b * 10 ^ k : ℚ) ≤ a * 2 ^ i.scale := by
    rw [← Nat.cast_le (α := ℚ), Nat.cast_mul, Nat.cast_mul, hunit, hgrid, ← mul_assoc, ← mul_assoc]
    exact mul_le_mul_iff_of_pos_right hp
  unfold Interval.contains
  dsimp only
  cases hclosed : i.closed with
  | true =>
    rw [Interval.mem_iff_of_closed hclosed, if_pos rfl, Bool.and_eq_true, decide_eq_true_eq,
      decide_eq_true_eq, hleft, hright]
    rfl
  | false =>
    rw [Interval.mem_iff_of_open hclosed, if_neg (by decide), Bool.and_eq_true, decide_eq_true_eq,
      decide_eq_true_eq, ← not_le, ← not_le, hleft, hright, not_le, not_le]
    rfl

theorem closed_iff : (interval m q).closed = true ↔ m % 2 = 0 := by
  simp [interval]

/-- A double in quarters of its last place. -/
theorem value_eq (m : ℕ) (q : ℤ) : (m * 2 ^ q : ℚ) = 4 * m * 2 ^ (q - 2) := by
  rw [zpow_sub₀ (by norm_num)]
  ring

theorem upper_eq (m : ℕ) (q : ℤ) : (interval m q).upper = (4 * m + 2) * 2 ^ (q - 2) := by
  rw [Interval.upper]
  push_cast [interval]
  rfl

/-- The lower end is half of the last place below, or a quarter where the doubles get denser. -/
theorem lower_eq (hm : 0 < m) (q : ℤ) : (interval m q).lower =
    (4 * m - if m = 2 ^ 52 ∧ -1074 < q then 1 else 2) * 2 ^ (q - 2) := by
  rw [Interval.lower]
  change ((4 * m - if m = 1 <<< 52 ∧ -1074 < q then 1 else 2 : ℕ) : ℚ) * 2 ^ (q - 2) = _
  rw [Nat.cast_sub (by split <;> omega)]
  push_cast
  rfl

/-- The place above is twice as high. -/
theorem two_mul_place (h : q' = q + 1) : (2 : ℚ) ^ q' = 2 * 2 ^ q := by
  rw [h, zpow_add_one₀ (by norm_num), mul_comm]

/-- A greater exponent doubles the last place at least. -/
theorem two_mul_place_le (h : q < q') : 2 * (2 : ℚ) ^ (q - 2) ≤ 2 ^ (q' - 2) := by
  rw [← zpow_one_add₀ (by norm_num)]
  exact zpow_le_zpow_right₀ (by norm_num) (by omega)

/-- The interval of the lesser double ends halfway to the greater one, or before, and that of the
greater one begins there, or after. -/
theorem upper_le_halfway (h : Regular m q) (h' : Regular m' q') (hlt : q < q' ∨ q = q' ∧ m < m') :
    2 * (interval m q).upper ≤ m * 2 ^ q + m' * 2 ^ q' ∧
      (m * 2 ^ q + m' * 2 ^ q' : ℚ) ≤ 2 * (interval m' q').lower := by
  have hplace : (0 : ℚ) < 2 ^ (q - 2) := by positivity
  obtain hq | ⟨rfl, hm⟩ := hlt
  · -- The mantissa of the greater one has full width.
    have hleast := h.least
    have hfull : 2 ^ 52 ≤ m' := h'.full.resolve_right (by omega)
    have hmq : (4 * m : ℚ) ≤ 2 ^ 55 - 4 := by
      have hlt : (4 * m + 4 : ℚ) ≤ 2 ^ 55 := by
        have hlt := h.lt
        exact_mod_cast (by omega : 4 * m + 4 ≤ 2 ^ 55)
      linarith
    have hplaces := two_mul_place_le hq
    have hplace' : (0 : ℚ) < 2 ^ (q' - 2) := by positivity
    rw [value_eq, value_eq, upper_eq, lower_eq (by omega)]
    generalize (2 : ℚ) ^ (q - 2) = u at *
    generalize (2 : ℚ) ^ (q' - 2) = u' at *
    have hmu : 4 * m * u ≤ (2 ^ 54 - 2) * u' :=
      calc 4 * m * u ≤ (2 ^ 55 - 4) * u := by gcongr
        _ = (2 ^ 54 - 2) * (2 * u) := by ring
        _ ≤ (2 ^ 54 - 2) * u' := by gcongr
    constructor
    · have hfull' : (2 ^ 54 : ℚ) ≤ 4 * m' := by exact_mod_cast (by omega : 2 ^ 54 ≤ 4 * m')
      have hmul : 2 ^ 54 * u' ≤ 4 * m' * u' := by gcongr
      linarith
    · by_cases hdense : m' = 2 ^ 52
      · subst hdense
        rw [if_pos ⟨rfl, by omega⟩]
        push_cast
        linarith
      · rw [if_neg fun h => hdense h.1]
        have hfull' : (2 ^ 54 + 4 : ℚ) ≤ 4 * m' := by
          exact_mod_cast (by omega : 2 ^ 54 + 4 ≤ 4 * m')
        have hmul : (2 ^ 54 + 4) * u' ≤ 4 * m' * u' := by gcongr
        linarith
  · have hm' : (4 * m + 4 : ℚ) ≤ 4 * m' := by exact_mod_cast (by omega : 4 * m + 4 ≤ 4 * m')
    have hmul : (4 * m + 4) * (2 : ℚ) ^ (q - 2) ≤ 4 * m' * 2 ^ (q - 2) := by gcongr
    rw [value_eq, value_eq, upper_eq]
    refine ⟨by linarith, ?_⟩
    rw [lower_eq (by omega)]
    split <;> linarith

/-- Where the intervals of two doubles meet, one has an odd mantissa. -/
theorem upper_lt_lower (h : Regular m q) (h' : Regular m' q') (hlt : q < q' ∨ q = q' ∧ m < m')
    (hm : m % 2 = 0) (hm' : m' % 2 = 0) : (interval m q).upper < (interval m' q').lower := by
  have hplace : (0 : ℚ) < 2 ^ (q - 2) := by positivity
  obtain hq | ⟨rfl, hlt⟩ := hlt
  · -- The next mantissa is odd and not yet too wide, so that its interval is between the two.
    have hsucc : Regular (m + 1) q := ⟨by have := h.lt; omega, h.least, by have := h.full; omega⟩
    have hnext := (upper_le_halfway h hsucc (.inr ⟨rfl, by omega⟩)).2
    have hlast := (upper_le_halfway hsucc h' (.inl hq))
    have hupper : (interval m q).upper < (interval (m + 1) q).upper := by
      rw [upper_eq, upper_eq]
      gcongr
      omega
    linarith
  · have hm4 : (4 * m + 8 : ℚ) ≤ 4 * m' := by exact_mod_cast (by omega : 4 * m + 8 ≤ 4 * m')
    rw [upper_eq, lower_eq (by omega)]
    gcongr
    split <;> linarith

/-- Rounding keeps the order: what lies in the interval of the lesser double is less. -/
theorem lt_of_mem (h : Regular m q) (h' : Regular m' q') (hlt : q < q' ∨ q = q' ∧ m < m')
    (hr : r ∈ interval m q) (hr' : r' ∈ interval m' q') : r < r' := by
  obtain ⟨hupper, hlower⟩ := upper_le_halfway h h' hlt
  have hle := Interval.le_of_mem hr
  have hle' := Interval.le_of_mem hr'
  cases hclosed : (interval m q).closed with
  | false =>
    have hopen := (Interval.mem_iff_of_open hclosed).1 hr
    linarith
  | true =>
    cases hclosed' : (interval m' q').closed with
    | false =>
      have hopen := (Interval.mem_iff_of_open hclosed').1 hr'
      linarith
    | true =>
      have hends := upper_lt_lower h h' hlt (closed_iff.1 hclosed) (closed_iff.1 hclosed')
      linarith

/-- A number rounds to one double only. -/
theorem eq_of_mem (h : Regular m q) (h' : Regular m' q') (hr : r ∈ interval m q)
    (hr' : r ∈ interval m' q') : m = m' ∧ q = q' := by
  by_contra hne
  have hcases : (q < q' ∨ q = q' ∧ m < m') ∨ (q' < q ∨ q' = q ∧ m' < m) := by omega
  obtain hlt | hlt := hcases
  · exact lt_irrefl r (lt_of_mem h h' hlt hr hr')
  · exact lt_irrefl r (lt_of_mem h' h hlt hr' hr)

/-- A double rounds to itself. -/
theorem value_mem (m : ℕ) (q : ℤ) : (m * 2 ^ q : ℚ) ∈ interval m q := by
  have hplace : (0 : ℚ) < 2 ^ (q - 2) := by positivity
  rcases Nat.eq_zero_or_pos m with rfl | hm
  · refine (Interval.mem_iff_of_closed rfl).2 ⟨?_, ?_⟩
    · simp [Interval.lower, interval]
    · rw [upper_eq]
      simp [hplace.le]
  · refine Interval.mem_of_lt ?_ ?_
    · rw [value_eq, lower_eq hm]
      gcongr
      split <;> norm_num
    · rw [value_eq, upper_eq]
      gcongr
      linarith

/-- No other double is nearer to a number than the one it rounds to, and one that is as near has
another parity. -/
theorem distance_le (h : Regular m q) (h' : Regular m' q') (hr : r ∈ interval m q) :
    |r - m * 2 ^ q| ≤ |r - m' * 2 ^ q'| ∧
      (|r - m * 2 ^ q| = |r - m' * 2 ^ q'| → (m' * 2 ^ q' : ℚ) = m * 2 ^ q ∨ m % 2 = 0) := by
  have hends := Interval.le_of_mem hr
  have hopen (hodd : m % 2 ≠ 0) := (Interval.mem_iff_of_open (by simp [interval, hodd])).1 hr
  have hcases : (q < q' ∨ q = q' ∧ m < m') ∨ (q' < q ∨ q' = q ∧ m' < m) ∨ q = q' ∧ m = m' := by
    omega
  obtain hlt | hlt | ⟨rfl, rfl⟩ := hcases
  · have hless := lt_of_mem h h' hlt (value_mem m q) (value_mem m' q')
    have hhalf := (upper_le_halfway h h' hlt).1
    rw [abs_of_nonpos (by linarith : r - m' * 2 ^ q' ≤ 0)]
    refine ⟨abs_le.2 ⟨by linarith, by linarith⟩, fun heq => .inr ?_⟩
    by_contra hodd
    have hstrict : |r - m * 2 ^ q| < -(r - m' * 2 ^ q') :=
      abs_lt.2 ⟨by linarith [hopen hodd], by linarith [hopen hodd]⟩
    exact hstrict.ne heq
  · have hless := lt_of_mem h' h hlt (value_mem m' q') (value_mem m q)
    have hhalf := (upper_le_halfway h' h hlt).2
    rw [abs_of_nonneg (by linarith : 0 ≤ r - m' * 2 ^ q')]
    refine ⟨abs_le.2 ⟨by linarith, by linarith⟩, fun heq => .inr ?_⟩
    by_contra hodd
    have hstrict : |r - m * 2 ^ q| < r - m' * 2 ^ q' :=
      abs_lt.2 ⟨by linarith [hopen hodd], by linarith [hopen hodd]⟩
    exact hstrict.ne heq
  · exact ⟨le_rfl, fun _ => .inl rfl⟩

end Shortest

namespace Exact

/-- The least number that rounds to an infinity: half a place beyond the greatest double. -/
def overflow : ℚ := (2 ^ 53 - 1 / 2) * 2 ^ 971

/-- The number that a double is, unless it is a NaN or infinite. -/
def value? : Exact → Option ℚ
  | finite negative m q => some ((if negative then -1 else 1) * (m * 2 ^ q))
  | _ => none

/-- The number that a sign and a magnitude make. -/
def signed (negative : Bool) (r : ℚ) : ℚ := (if negative then -1 else 1) * r

@[simp] theorem signed_true (r : ℚ) : signed true r = -r := by simp [signed]

@[simp] theorem signed_false (r : ℚ) : signed false r = r := by simp [signed]

@[simp] theorem signed_zero (negative : Bool) : signed negative 0 = 0 := by simp [signed]

theorem signed_not (negative : Bool) (r : ℚ) : signed (!negative) r = -signed negative r := by
  cases negative <;> simp

theorem signed_mul (negative : Bool) (r s : ℚ) :
    signed negative (r * s) = signed negative r * s := by
  cases negative <;> simp

theorem signed_natAbs (i : ℤ) : signed (decide (i < 0)) i.natAbs = i := by
  rw [Nat.cast_natAbs, Int.cast_abs]
  rcases lt_or_ge i 0 with hi | hi
  · have hneg : (i : ℚ) < 0 := by exact_mod_cast hi
    simp [hi, abs_of_neg hneg]
  · have hpos : (0 : ℚ) ≤ i := by exact_mod_cast hi
    simp [hi.not_gt, abs_of_nonneg hpos]

theorem cast_apply (negative : Bool) (n : ℤ) :
    (((sign negative).apply n : ℤ) : ℚ) = signed negative n := by
  cases negative <;> simp [sign, Float.Model.UnpackedFloat.Sign.apply]

variable {r : ℚ} {m : ℕ} {q : ℤ}

theorem regular_next : Regular (2 ^ 52) 972 := ⟨by decide, by decide, .inl le_rfl⟩

theorem overflow_eq : overflow = (4 * 2 ^ 52 - 1) * 2 ^ (972 - 2 : ℤ) := by
  have hplace : (2 ^ 971 : ℚ) = 2 * 2 ^ (972 - 2 : ℤ) := pow_succ' 2 970
  rw [overflow, hplace]
  ring

theorem lower_next : (interval (2 ^ 52) 972).lower = overflow := by
  rw [lower_eq (by decide), if_pos ⟨rfl, by decide⟩, overflow_eq]
  norm_cast

theorem overflow_mem : overflow ∈ interval (2 ^ 52) 972 := by
  refine (Interval.mem_iff_of_closed rfl).2 ⟨lower_next.le, ?_⟩
  rw [upper_eq, overflow_eq]
  gcongr
  norm_num

/-- A number rounds to an infinity exactly from there on. -/
theorem lt_overflow_iff (h : Regular m q) (hr : r ∈ interval m q) : r < overflow ↔ q ≤ 971 := by
  constructor
  · intro hlt
    by_contra hq
    have hcases : (972 < q ∨ 972 = q ∧ 2 ^ 52 < m) ∨ q = 972 ∧ m = 2 ^ 52 := by
      have hfull := h.full.resolve_right (by omega)
      omega
    obtain hgt | ⟨rfl, rfl⟩ := hcases
    · exact lt_asymm hlt (lt_of_mem regular_next h hgt overflow_mem hr)
    · have hle := (Interval.le_of_mem hr).1
      rw [lower_next] at hle
      exact hlt.not_ge hle
  · intro hq
    exact lt_of_mem h regular_next (.inl (by omega)) hr overflow_mem

end Exact

namespace Number

open Exact

/-- The double nearest to a number that is not negative: of two that are as near it is the one with
the even mantissa, and it is the infinity when the number is beyond the doubles. -/
def IsNearest (r : ℚ) (x : Float) : Prop :=
  if r < overflow then
    ∃ m q, ofFloat x = .finite false m q ∧ ∀ y v, (ofFloat y).value? = some v →
      |r - m * 2 ^ q| ≤ |r - v| ∧ (|r - m * 2 ^ q| = |r - v| → v = m * 2 ^ q ∨ m % 2 = 0)
  else ofFloat x = .infinite false

variable {r : ℚ} {m : ℕ} {q : ℤ}

theorem value?_double (negative : Bool) (hq : q ≤ 971) :
    (double negative m q).value? = some ((if negative then -1 else 1) * (m * 2 ^ q : ℚ)) := by
  by_cases hm : m = 0
  · simp [double, value?, hm]
  · simp [double, value?, hm, hq]

/-- A double that has a value is packed of regular parts with this value. -/
theorem exists_pack_of_value? {y : Float} {v : ℚ} (h : (ofFloat y).value? = some v) :
    ∃ (negative : Bool) (n : ℕ) (p : ℤ), Regular n p ∧ p ≤ 971 ∧ y = pack negative n p ∧
      v = signed negative (n * 2 ^ p) := by
  obtain hy | ⟨negative, hy⟩ | ⟨negative, n, p, hregular, hp, rfl⟩ := pack_cases y
  · rw [hy] at h
    cases h
  · rw [hy] at h
    cases h
  · rw [ofFloat_pack hregular, value?_double negative hp] at h
    exact ⟨negative, n, p, hregular, hp, rfl, (Option.some.inj h).symm⟩

/-- The double that a number rounds to is the nearest. -/
theorem isNearest_pack (h : Regular m q) (hr : r ∈ interval m q) (hpos : 0 ≤ r) :
    IsNearest r (pack false m q) := by
  unfold IsNearest
  by_cases hq : q ≤ 971
  · rw [if_pos ((lt_overflow_iff h hr).2 hq)]
    have hnearest (y : Float) (v : ℚ) (hv : (ofFloat y).value? = some v) :
        |r - m * 2 ^ q| ≤ |r - v| ∧ (|r - m * 2 ^ q| = |r - v| → v = m * 2 ^ q ∨ m % 2 = 0) := by
      obtain ⟨negative, n, p, hregular, -, -, rfl⟩ := exists_pack_of_value? hv
      obtain ⟨hle, htie⟩ := distance_le h hregular hr
      cases negative with
      | false => simpa using ⟨hle, htie⟩
      | true =>
        -- A negative double is at least as far as zero is.
        have hvalue : (0 : ℚ) ≤ n * 2 ^ p := by positivity
        have hleast : Regular 0 (-1074) := ⟨by decide, le_rfl, .inr rfl⟩
        obtain ⟨hzero, htie'⟩ := distance_le h hleast hr
        rw [Nat.cast_zero, zero_mul, sub_zero, abs_of_nonneg hpos] at hzero htie'
        rw [signed_true, sub_neg_eq_add, abs_of_nonneg (add_nonneg hpos hvalue)]
        refine ⟨by linarith, fun heq => ?_⟩
        have hn : (n * 2 ^ p : ℚ) = 0 := by linarith
        rw [hn, add_zero] at heq
        rw [hn, neg_zero]
        exact htie' heq
    by_cases hm : m = 0
    · refine ⟨0, 0, by rw [ofFloat_pack h, double, if_pos hm], ?_⟩
      simpa [hm] using hnearest
    · exact ⟨m, q, by rw [ofFloat_pack h, double, if_neg hm, if_pos hq], hnearest⟩
  · rw [if_neg (mt (lt_overflow_iff h hr).1 hq), ofFloat_pack h, double,
      if_neg (ne_zero_of_lt h (by omega)), if_neg hq]

end Number

end ScriptMinifier
