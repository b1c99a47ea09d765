import Mathlib
import ScriptMinifier.Proofs.Conversion
import ScriptMinifier.Proofs.Literals

/-!
Numbers of a radix. Their digits are gathered in a double, which is exact as long as it can be. With
the first digit that makes the number too wide it is rounded, and from there on it keeps its
mantissa, for what a further digit adds is less than half of a place. So the result is the nearest
double, unless leading digits are halfway between two doubles, where they are rounded down, and
digits other than zero follow.
-/

namespace ScriptMinifier

open Shortest (interval)
open Rounding

namespace Number

/-- The whole number that digits of a radix denote. -/
def wholeOf (radix : ℕ) (ds : List Char) : ℕ :=
  Nat.ofDigits radix (ds.map digitValue).reverse

/-- Halfway between two doubles, of which the lesser one has an even mantissa. -/
def IsHalfway (n : ℕ) : Prop :=
  ∃ m j, 2 ^ 52 ≤ m ∧ m < 2 ^ 53 ∧ m % 2 = 0 ∧ n = (2 * m + 1) * 2 ^ j

/-- Leading digits are halfway between two doubles, and digits other than zero follow. -/
def BeginsHalfway (radix n : ℕ) : Prop := ∃ k, IsHalfway (n / radix ^ k) ∧ n % radix ^ k ≠ 0

variable {radix n m b d j : ℕ} {q : ℤ} {r : ℚ} {x : Float} {ds : List Char} {c : Char}

theorem wholeOf_concat (radix : ℕ) (ds : List Char) (c : Char) :
    wholeOf radix (ds ++ [c]) = wholeOf radix ds * radix + digitValue c := by
  rw [wholeOf, List.map_append, List.reverse_append]
  change Nat.ofDigits radix (digitValue c :: (ds.map digitValue).reverse) = _
  rw [Nat.ofDigits_cons, Nat.mul_comm, Nat.add_comm]
  rfl

theorem le_of_isHalfway (h : IsHalfway n) : 2 ^ 53 ≤ n := by
  obtain ⟨m, j, hm, -, -, rfl⟩ := h
  calc 2 ^ 53 ≤ (2 * m + 1) * 1 := by omega
    _ ≤ (2 * m + 1) * 2 ^ j := Nat.mul_le_mul_left _ (Nat.two_pow_pos j)

/-- With a further digit one leading digit more may be left out. -/
theorem beginsHalfway_concat (hd : d < radix) : BeginsHalfway radix (n * radix + d) ↔
    ∃ k, IsHalfway (n / radix ^ k) ∧ n % radix ^ k * radix + d ≠ 0 := by
  have hlast : (n * radix + d) % radix = d := by
    rw [Nat.mul_comm, Nat.mul_add_mod, Nat.mod_eq_of_lt hd]
  have hrest : (n * radix + d) / radix = n := by
    rw [Nat.mul_comm, Nat.mul_add_div (by omega), Nat.div_eq_of_lt hd, Nat.add_zero]
  have hdiv (k : ℕ) : (n * radix + d) / radix ^ (k + 1) = n / radix ^ k := by
    rw [pow_succ', ← Nat.div_div_eq_div_mul, hrest]
  have hmod (k : ℕ) : (n * radix + d) % radix ^ (k + 1) = n % radix ^ k * radix + d := by
    rw [pow_succ', Nat.mod_mul, hlast, hrest, Nat.add_comm, Nat.mul_comm]
  constructor
  · rintro ⟨_ | k, hhalf, hne⟩
    · exact absurd (Nat.mod_one _) hne
    · rw [hdiv] at hhalf
      rw [hmod] at hne
      exact ⟨k, hhalf, hne⟩
  · rintro ⟨k, hhalf, hne⟩
    exact ⟨k + 1, by rwa [hdiv], by rwa [hmod]⟩

/-- Digits below the width of a mantissa are not yet halfway. -/
theorem not_beginsHalfway_of_lt (hn : n < 2 ^ 53) (hd : d < radix) :
    ¬ BeginsHalfway radix (n * radix + d) := by
  rw [beginsHalfway_concat hd]
  rintro ⟨k, hhalf, -⟩
  have hle := (le_of_isHalfway hhalf).trans (Nat.div_le_self n (radix ^ k))
  omega

theorem BeginsHalfway.concat (h : BeginsHalfway radix n) (hd : d < radix) :
    BeginsHalfway radix (n * radix + d) := by
  obtain ⟨k, hhalf, hne⟩ := h
  refine (beginsHalfway_concat hd).2 ⟨k, hhalf, ?_⟩
  have hmul : 0 < n % radix ^ k * radix := Nat.mul_pos (Nat.pos_of_ne_zero hne) (by omega)
  omega

theorem not_beginsHalfway_mul (h : ¬ BeginsHalfway radix n) (hradix : 0 < radix) :
    ¬ BeginsHalfway radix (n * radix) := by
  have hconcat := beginsHalfway_concat (n := n) hradix
  rw [Nat.add_zero] at hconcat
  rw [hconcat]
  rintro ⟨k, hhalf, hne⟩
  exact h ⟨k, hhalf, fun hzero => hne (by rw [hzero, Nat.zero_mul])⟩

/-- Zeros do not lead away from halfway. -/
theorem not_beginsHalfway_concat (h : ¬ BeginsHalfway (2 ^ b) n) (hhalf : ¬ IsHalfway n)
    (hd : d < 2 ^ b) : ¬ BeginsHalfway (2 ^ b) (n * 2 ^ b + d) := by
  rw [beginsHalfway_concat hd]
  rintro ⟨k, ⟨m, j, hlow, hhigh, heven, hm⟩, -⟩
  by_cases hzero : n % (2 ^ b) ^ k = 0
  · refine hhalf ⟨m, j + b * k, hlow, hhigh, heven, ?_⟩
    rw [← Nat.div_add_mod' n ((2 ^ b) ^ k), hzero, hm, Nat.add_zero, pow_add, pow_mul, mul_assoc]
  · exact h ⟨k, ⟨m, j, hlow, hhigh, heven, hm⟩, hzero⟩

theorem infinity_mul (hx : Holds false r x) (hr : r ≠ 0) : infinity * x = infinity := by
  obtain ⟨m, q, h, hq, rfl, rfl⟩ := hx
  have hm : m ≠ 0 := by
    rintro rfl
    simp at hr
  rw [mul_eq, Exact.unpack_pack h hq, Exact.parts, dif_neg hm]
  rfl

theorem infinity_add (hx : Holds false r x) : infinity + x = infinity := by
  obtain ⟨m, q, h, hq, rfl, rfl⟩ := hx
  rw [add_eq, Exact.unpack_pack h hq, Exact.parts]
  split <;> rfl

theorem pack_infinite (h : Regular m q) (hq : 971 < q) : Exact.pack false m q = infinity := by
  refine Exact.ofFloat_injective ?_
  rw [Exact.ofFloat_pack h, Exact.double, if_neg (Exact.ne_zero_of_lt h (by omega)),
    if_neg (by omega)]
  rfl

theorem regular_add (h : Regular m q) (hq : -1074 < q) (b : ℕ) : Regular m (q + b) :=
  ⟨h.lt, by omega, .inl (h.full.resolve_right (by omega))⟩

/-- Less than half of a place does not lead out of the interval of a double. -/
theorem add_mem (hr : 0 ≤ r) (hlt : r < 2 ^ (q - 1)) : m * 2 ^ q + r ∈ interval m q := by
  have hlower := (Shortest.Interval.le_of_mem (Shortest.value_mem m q)).1
  rcases hr.eq_or_lt with rfl | hpos
  · rw [add_zero]
    exact Shortest.value_mem m q
  · refine Shortest.Interval.mem_of_lt (by linarith) ?_
    rw [Shortest.two_mul_place (by omega : q - 1 = q - 2 + 1)] at hlt
    rw [Shortest.upper_eq, Shortest.value_eq]
    linarith

/-- Once a double has places beyond the units, a further digit moves these places only. -/
theorem pack_concat (h : Regular m q) (hq : 1 ≤ q) (hb : 1 ≤ b) (hb' : b < 53) (hd : d < 2 ^ b) :
    Exact.pack false m q * Float.ofNat (2 ^ b) + Float.ofNat d = Exact.pack false m (q + b) := by
  have hradix : Holds false (2 ^ b : ℕ) (Float.ofNat (2 ^ b)) :=
    holds_ofNat (Nat.pow_lt_pow_right (by decide) hb')
  have hdigit : Holds false d (Float.ofNat d) :=
    holds_ofNat (hd.trans (Nat.pow_lt_pow_right (by decide) hb'))
  have hshift := regular_add h (by omega) b
  by_cases hfinite : q ≤ 971
  · have hproduct : Exact.pack false m q * Float.ofNat (2 ^ b) = Exact.pack false m (q + b) := by
      have hrounds := (holds_pack false h hfinite).mul hradix
      have hvalue : (m * 2 ^ q * (2 ^ b : ℕ) : ℚ) = m * 2 ^ (q + b) := by
        rw [zpow_add₀ (by norm_num), zpow_natCast]
        push_cast
        ring
      rw [hvalue] at hrounds
      exact hrounds.unique (rounds_pack _ hshift (Shortest.value_mem m _))
    rw [hproduct]
    by_cases hfinite' : q + b ≤ 971
    · have hsmall : (d : ℚ) < 2 ^ (q + b - 1) :=
        calc (d : ℚ) < 2 ^ (b : ℤ) := by
              rw [zpow_natCast]
              exact_mod_cast hd
          _ ≤ 2 ^ (q + b - 1) := zpow_le_zpow_right₀ (by norm_num) (by omega)
      exact ((holds_pack false hshift hfinite').add hdigit).unique
        (rounds_pack false hshift (add_mem (by positivity) hsmall))
    · rw [pack_infinite hshift (by omega), infinity_add hdigit]
  · rw [pack_infinite h (by omega), infinity_mul hradix (by positivity), infinity_add hdigit,
      pack_infinite hshift (by omega)]

/-- An interval is scaled with the place. -/
theorem mem_scale (h : Regular m q) (hq : -1074 < q) (b : ℕ) (hr : r ∈ interval m q) :
    r * 2 ^ b ∈ interval m (q + b) := by
  have hm : 0 < m := Nat.pos_of_ne_zero (Exact.ne_zero_of_lt h hq)
  have hplace : (2 : ℚ) ^ (q + b - 2) = 2 ^ (q - 2) * 2 ^ b := by
    rw [← zpow_natCast, ← zpow_add₀ (by norm_num)]
    congr 1
    omega
  have hpow : (0 : ℚ) < 2 ^ b := by positivity
  have hlower : (interval m (q + b)).lower = (interval m q).lower * 2 ^ b := by
    have hdense : (m = 2 ^ 52 ∧ -1074 < q + b) ↔ (m = 2 ^ 52 ∧ -1074 < q) := by omega
    simp only [Shortest.lower_eq hm, hplace, hdense, mul_assoc]
  have hupper : (interval m (q + b)).upper = (interval m q).upper * 2 ^ b := by
    rw [Shortest.upper_eq, Shortest.upper_eq, hplace, mul_assoc]
  cases hclosed : (interval m q).closed with
  | true =>
    obtain ⟨hle, hle'⟩ := (Shortest.Interval.mem_iff_of_closed hclosed).1 hr
    have hclosed' : (interval m (q + b)).closed = true := hclosed
    refine (Shortest.Interval.mem_iff_of_closed hclosed').2 ⟨?_, ?_⟩
    · rw [hlower]
      gcongr
    · rw [hupper]
      gcongr
  | false =>
    obtain ⟨hlt, hlt'⟩ := (Shortest.Interval.mem_iff_of_open hclosed).1 hr
    refine Shortest.Interval.mem_of_lt ?_ ?_
    · rw [hlower]
      gcongr
    · rw [hupper]
      gcongr

/-- The upper end of an interval with places beyond the units is whole. -/
theorem upper_succ (m j : ℕ) : (interval m (j + 1)).upper = ((2 * m + 1) * 2 ^ j : ℕ) := by
  have hplace : (2 : ℚ) ^ (j : ℤ) = 2 * 2 ^ ((j : ℤ) + 1 - 2) :=
    Shortest.two_mul_place (by omega)
  rw [Shortest.upper_eq]
  push_cast
  rw [← zpow_natCast, hplace]
  ring

theorem place_add (j b : ℕ) : (j : ℤ) + 1 + b = (j + b : ℕ) + 1 := by
  push_cast
  ring

/-- What digits with the value `n` are gathered to: the number itself, or the double it rounds to,
or the one below although the number is more than halfway to the next. -/
inductive Gathers (radix n : ℕ) (x : Float) : Prop
  | exact (hlt : n < 2 ^ 53) (hx : Holds false n x)
  | rounded (m j : ℕ) (h : Regular m (j + 1)) (hn : (n : ℚ) ∈ interval m (j + 1))
      (hx : x = Exact.pack false m (j + 1)) (hhalf : ¬ BeginsHalfway radix n)
  | cut (m j : ℕ) (h : Regular m (j + 1)) (heven : m % 2 = 0) (hlow : (2 * m + 1) * 2 ^ j < n)
      (hhigh : n < (m + 1) * 2 ^ (j + 1)) (hx : x = Exact.pack false m (j + 1))
      (hhalf : BeginsHalfway radix n)

/-- A number that is too wide to be exact rounds to a double with places beyond the units. -/
theorem exists_place (h : Regular m q) (hn : (n : ℚ) ∈ interval m q) (hwide : 2 ^ 53 ≤ n) :
    ∃ j : ℕ, q = j + 1 := by
  have hq : 1 ≤ q := by
    by_contra hq
    have hnext : (2 ^ 53 : ℚ) ∈ interval (2 ^ 52) 1 := by
      have hvalue := Shortest.value_mem (2 ^ 52) 1
      norm_num at hvalue ⊢
      exact hvalue
    have hlt := Shortest.lt_of_mem h ⟨by decide, by decide, .inl le_rfl⟩ (.inl (by omega)) hn hnext
    have hle : (2 ^ 53 : ℚ) ≤ n := by exact_mod_cast hwide
    linarith
  exact ⟨(q - 1).toNat, by omega⟩

theorem Gathers.concat_exact (hlt : n < 2 ^ 53) (hx : Holds false n x) (hb' : b < 53)
    (hd : d < 2 ^ b) :
    Gathers (2 ^ b) (n * 2 ^ b + d) (x * Float.ofNat (2 ^ b) + Float.ofNat d) := by
  have hpow : 2 ^ b < 2 ^ 53 := Nat.pow_lt_pow_right (by decide) hb'
  have hproduct : Rounds false (n * 2 ^ (b : ℤ)) (x * Float.ofNat (2 ^ b)) := by
    have hrounds := hx.mul (holds_ofNat hpow)
    push_cast at hrounds
    rwa [zpow_natCast]
  have hsum := (hproduct.holds_of_lt hlt (by omega) (by omega)).add (holds_ofNat (hd.trans hpow))
  have hvalue : (n * 2 ^ (b : ℤ) + d : ℚ) = (n * 2 ^ b + d : ℕ) := by
    push_cast
    rw [zpow_natCast]
  rw [hvalue] at hsum
  by_cases hexact : n * 2 ^ b + d < 2 ^ 53
  · refine .exact hexact ?_
    have hholds := Rounds.holds_of_lt (e := 0) (by simpa using hsum) hexact (by decide) (by decide)
    simpa using hholds
  · obtain ⟨m, q, hregular, hmem, hpack⟩ := hsum
    obtain ⟨j, rfl⟩ := exists_place hregular hmem (by omega)
    exact .rounded m j hregular hmem hpack (not_beginsHalfway_of_lt hlt hd)

theorem concat_lt {k : ℕ} (hn : n < k) (hd : d < 2 ^ b) : n * 2 ^ b + d < k * 2 ^ b :=
  calc n * 2 ^ b + d < (n + 1) * 2 ^ b := by
        rw [Nat.succ_mul]
        omega
    _ ≤ k * 2 ^ b := Nat.mul_le_mul_right _ hn

/-- Below its end the interval of a double has room for a further digit. -/
theorem concat_mem {j : ℕ} (h : Regular m (j + 1)) (hn : (n : ℚ) ∈ interval m (j + 1))
    (hlt : n < (2 * m + 1) * 2 ^ j) (hd : d < 2 ^ b) :
    ((n * 2 ^ b + d : ℕ) : ℚ) ∈ interval m ((j + b : ℕ) + 1) := by
  have hscaled := mem_scale h (by omega) b hn
  rw [place_add] at hscaled
  rcases Nat.eq_zero_or_pos d with rfl | hpos
  · rw [Nat.add_zero]
    exact_mod_cast hscaled
  · have hlower := (Shortest.Interval.le_of_mem hscaled).1
    have hend : n * 2 ^ b + d < (2 * m + 1) * 2 ^ (j + b) :=
      calc n * 2 ^ b + d < (2 * m + 1) * 2 ^ j * 2 ^ b := concat_lt hlt hd
        _ = (2 * m + 1) * 2 ^ (j + b) := by rw [pow_add, mul_assoc]
    refine Shortest.Interval.mem_of_lt (hlower.trans_lt ?_) ?_
    · exact_mod_cast Nat.lt_add_of_pos_right hpos
    · rw [upper_succ]
      exact_mod_cast hend

/-- What is halfway between two doubles is the end of an interval. -/
theorem eq_of_isHalfway {j : ℕ} (h : Regular m (j + 1)) (hn : (n : ℚ) ∈ interval m (j + 1))
    (hhalf : IsHalfway n) : n = (2 * m + 1) * 2 ^ j := by
  obtain ⟨m', j', hlow, hhigh, heven, hvalue⟩ := hhalf
  have hupper : (interval m' (j' + 1)).upper = n := by rw [upper_succ, hvalue]
  have hlower := (Shortest.Interval.le_of_mem (Shortest.value_mem m' (j' + 1)))
  have hn' : (n : ℚ) ∈ interval m' (j' + 1) := by
    refine (Shortest.Interval.mem_iff_of_closed (Shortest.closed_iff.2 heven)).2 ⟨?_, hupper.ge⟩
    linarith
  obtain ⟨rfl, hj⟩ := Shortest.eq_of_mem h ⟨hhigh, by omega, .inl hlow⟩ hn hn'
  rw [hvalue, show j' = j by omega]

/-- The end of an interval belongs to it only if the mantissa is even. -/
theorem even_of_mem (hn : (n : ℚ) ∈ interval m (j + 1)) (hend : n = (2 * m + 1) * 2 ^ j) :
    m % 2 = 0 := by
  by_contra hodd
  have hopen : (interval m (j + 1)).closed = false := by simpa [interval] using hodd
  have hlt := ((Shortest.Interval.mem_iff_of_open hopen).1 hn).2
  rw [upper_succ, hend] at hlt
  exact lt_irrefl _ hlt

/-- A digit other than zero after the end of an interval is cut off. -/
theorem Gathers.concat_end (h : Regular m (j + 1)) (heven : m % 2 = 0)
    (hx : x = Exact.pack false m ((j + b : ℕ) + 1)) (hpos : 0 < d) (hd : d < 2 ^ b) :
    Gathers (2 ^ b) ((2 * m + 1) * 2 ^ j * 2 ^ b + d) x := by
  have hfull : 2 ^ 52 ≤ m := h.full.resolve_right (by omega)
  have hhalf : BeginsHalfway (2 ^ b) ((2 * m + 1) * 2 ^ j * 2 ^ b + d) := by
    refine (beginsHalfway_concat hd).2 ⟨0, ?_, by omega⟩
    rw [pow_zero, Nat.div_one]
    exact ⟨m, j, hfull, h.lt, heven, rfl⟩
  refine .cut m (j + b) (place_add j b ▸ regular_add h (by omega) b) heven ?_ ?_ hx hhalf
  · rw [pow_add, ← mul_assoc]
    omega
  · have hlt : (2 * m + 1) * 2 ^ j < (m + 1) * 2 ^ (j + 1) := by
      have hpow := Nat.two_pow_pos j
      rw [pow_succ]
      linarith
    calc (2 * m + 1) * 2 ^ j * 2 ^ b + d < (m + 1) * 2 ^ (j + 1) * 2 ^ b := concat_lt hlt hd
      _ = (m + 1) * 2 ^ (j + b + 1) := by ring

theorem Gathers.concat_rounded (h : Regular m (j + 1)) (hn : (n : ℚ) ∈ interval m (j + 1))
    (hhalf : ¬ BeginsHalfway (2 ^ b) n) (hx : x = Exact.pack false m ((j + b : ℕ) + 1))
    (hd : d < 2 ^ b) : Gathers (2 ^ b) (n * 2 ^ b + d) x := by
  have hshift : Regular m ((j + b : ℕ) + 1) := place_add j b ▸ regular_add h (by omega) b
  have hle : n ≤ (2 * m + 1) * 2 ^ j := by
    have hupper := (Shortest.Interval.le_of_mem hn).2
    rw [upper_succ] at hupper
    exact_mod_cast hupper
  rcases hle.lt_or_eq with hlt | heq
  · refine .rounded m (j + b) hshift (concat_mem h hn hlt hd) hx
      (not_beginsHalfway_concat hhalf (fun hn' => ?_) hd)
    exact hlt.ne (eq_of_isHalfway h hn hn')
  rcases Nat.eq_zero_or_pos d with rfl | hpos
  · have hscaled := mem_scale h (by omega) b hn
    rw [place_add] at hscaled
    refine .rounded m (j + b) hshift ?_ hx (not_beginsHalfway_mul hhalf (Nat.two_pow_pos b))
    exact_mod_cast hscaled
  · have heven := even_of_mem hn heq
    rw [heq]
    exact .concat_end h heven hx hpos hd

theorem Gathers.concat_cut (h : Regular m (j + 1)) (heven : m % 2 = 0)
    (hlow : (2 * m + 1) * 2 ^ j < n) (hhigh : n < (m + 1) * 2 ^ (j + 1))
    (hhalf : BeginsHalfway (2 ^ b) n) (hx : x = Exact.pack false m ((j + b : ℕ) + 1))
    (hd : d < 2 ^ b) : Gathers (2 ^ b) (n * 2 ^ b + d) x := by
  refine .cut m (j + b) (place_add j b ▸ regular_add h (by omega) b) heven ?_ ?_ hx
    (hhalf.concat hd)
  · calc (2 * m + 1) * 2 ^ (j + b) = (2 * m + 1) * 2 ^ j * 2 ^ b := by rw [pow_add, mul_assoc]
      _ < n * 2 ^ b := Nat.mul_lt_mul_of_pos_right hlow (Nat.two_pow_pos b)
      _ ≤ n * 2 ^ b + d := Nat.le_add_right _ _
  · calc n * 2 ^ b + d < (m + 1) * 2 ^ (j + 1) * 2 ^ b := concat_lt hhigh hd
      _ = (m + 1) * 2 ^ (j + b + 1) := by ring

/-- A further digit. -/
theorem Gathers.concat (h : Gathers (2 ^ b) n x) (hb : 1 ≤ b) (hb' : b < 53) (hd : d < 2 ^ b) :
    Gathers (2 ^ b) (n * 2 ^ b + d) (x * Float.ofNat (2 ^ b) + Float.ofNat d) := by
  have hpack {m j : ℕ} (h : Regular m (j + 1)) : Exact.pack false m (j + 1) *
      Float.ofNat (2 ^ b) + Float.ofNat d = Exact.pack false m ((j + b : ℕ) + 1) := by
    rw [pack_concat h (by omega) hb hb' hd, place_add]
  obtain ⟨hlt, hx⟩ | ⟨m, j, h, hn, rfl, hhalf⟩ | ⟨m, j, h, heven, hlow, hhigh, rfl, hhalf⟩ := h
  · exact .concat_exact hlt hx hb' hd
  · exact .concat_rounded h hn hhalf (hpack h) hd
  · exact .concat_cut h heven hlow hhigh hhalf (hpack h) hd

/-- Gathering digits one after the other. -/
theorem gathers_foldl (hb : 1 ≤ b) (hb' : b < 53) (hds : ∀ c ∈ ds, digitValue c < 2 ^ b) :
    Gathers (2 ^ b) (wholeOf (2 ^ b) ds)
      (ds.foldl (fun x c => x * Float.ofNat (2 ^ b) + Float.ofNat (digitValue c)) 0.0) := by
  induction ds using List.reverseRecOn with
  | nil =>
    have hzero : (0.0 : Float) = Exact.pack false 0 (-1074) := rfl
    refine .exact (Nat.two_pow_pos 53) ?_
    change Holds false (0 : ℕ) (0.0 : Float)
    rw [hzero]
    exact_mod_cast holds_zero false
  | append_singleton ds c ih =>
    obtain ⟨hds, hc⟩ := List.forall_mem_append.1 hds
    rw [List.foldl_append, wholeOf_concat]
    exact (ih hds).concat hb hb' (hc c List.mem_cons_self)

/-- The gathered double is the nearest one, unless digits were lost halfway. -/
theorem Gathers.isNearest_iff (h : Gathers radix n x) :
    IsNearest n x ↔ Exact.overflow ≤ n ∨ ¬ BeginsHalfway radix n := by
  obtain ⟨hlt, hx⟩ | ⟨m, j, h, hn, rfl, hhalf⟩ | ⟨m, j, h, heven, hlow, hhigh, rfl, hhalf⟩ := h
  · have hhalf : ¬ BeginsHalfway radix n := by
      rintro ⟨k, hhalf, -⟩
      have hle := (le_of_isHalfway hhalf).trans (Nat.div_le_self n (radix ^ k))
      omega
    exact iff_of_true (hx.rounds.isNearest (by positivity)) (.inr hhalf)
  · exact iff_of_true (isNearest_pack h hn (by positivity)) (.inr hhalf)
  · -- The next double is nearer, if there is one.
    have hfull : 2 ^ 52 ≤ m := h.full.resolve_right (by omega)
    have hnext : Regular (m + 1) (j + 1) := ⟨by have := h.lt; omega, by omega, .inl (by omega)⟩
    have hplace : (2 : ℚ) ^ ((j : ℤ) + 1) = 2 * 2 ^ j := by
      rw [Shortest.two_mul_place rfl, zpow_natCast]
    have hlow' : ((2 * m + 1) * 2 ^ j : ℚ) < n := by exact_mod_cast hlow
    have hhigh' : (n : ℚ) < (m + 1) * (2 * 2 ^ j) := by
      rw [pow_succ'] at hhigh
      exact_mod_cast hhigh
    have hpos : (0 : ℚ) < 2 ^ j := by positivity
    have hvalue := Exact.lt_overflow_iff h (Shortest.value_mem m (j + 1))
    have hvalue' := Exact.lt_overflow_iff hnext (Shortest.value_mem (m + 1) (j + 1))
    push_cast at hvalue'
    rw [hplace] at hvalue hvalue'
    by_cases hfinite : (j : ℤ) + 1 ≤ 971
    · have hlt := hhigh'.trans (hvalue'.2 hfinite)
      refine iff_of_false (fun hnearest => ?_) (not_or.2 ⟨hlt.not_ge, not_not.2 hhalf⟩)
      rw [IsNearest, if_pos hlt, Exact.ofFloat_pack h, Exact.double, if_neg (by omega),
        if_pos hfinite] at hnearest
      obtain ⟨_, _, ⟨⟩, hnearest⟩ := hnearest
      have hvalue := value?_double (m := m + 1) false hfinite
      rw [← Exact.ofFloat_pack hnext] at hvalue
      have hdistance := (hnearest _ _ hvalue).1
      push_cast at hdistance
      rw [one_mul, hplace, abs_of_pos (by linarith), abs_of_neg (by linarith)] at hdistance
      linarith
    · have hge : Exact.overflow ≤ n := (not_lt.1 (mt hvalue.1 hfinite)).trans (by linarith)
      refine iff_of_true ?_ (.inl hge)
      rw [IsNearest, if_neg hge.not_gt, Exact.ofFloat_pack h, Exact.double, if_neg (by omega),
        if_neg hfinite]

/-- The radixes with the letters that mark them. -/
def radixMarks : List (Char × ℕ) := [('x', 16), ('X', 16), ('o', 8), ('O', 8), ('b', 2), ('B', 2)]

theorem eq_of_mem_radixMarks {mark : Char} (h : (mark, radix) ∈ radixMarks) :
    mark = 'x' ∧ radix = 16 ∨ mark = 'X' ∧ radix = 16 ∨ mark = 'o' ∧ radix = 8 ∨
      mark = 'O' ∧ radix = 8 ∨ mark = 'b' ∧ radix = 2 ∨ mark = 'B' ∧ radix = 2 := by
  simpa [radixMarks] using h

/-- A digit of a radix, in either case. -/
def IsRadixDigit (radix : ℕ) (c : Char) : Prop :=
  ∃ n < radix, c = Nat.digitChar n ∨ c = (Nat.digitChar n).toUpper

instance (radix : ℕ) (c : Char) : Decidable (IsRadixDigit radix c) :=
  inferInstanceAs (Decidable (∃ n < radix, c = Nat.digitChar n ∨ c = (Nat.digitChar n).toUpper))

theorem IsRadixDigit.digitValue_lt (h : IsRadixDigit radix c) (hradix : radix ≤ 16) :
    digitValue c < radix := by
  obtain ⟨n, hn, rfl | rfl⟩ := h
  · rwa [digitValue_digitChar (by omega)]
  · have hvalue : digitValue (Nat.digitChar n).toUpper = n := by
      have hn' : n < 16 := by omega
      interval_cases n <;> rfl
    rwa [hvalue]

theorem IsRadixDigit.not_isBlank (h : IsRadixDigit radix c) (hradix : radix ≤ 16) :
    Text.isBlank c = false := by
  obtain ⟨n, hn, rfl | rfl⟩ := h <;>
  · have hn' : n < 16 := by omega
    clear hn
    interval_cases n <;> rfl

/-- A radix is a power of two. -/
theorem exists_bits {mark : Char} (h : (mark, radix) ∈ radixMarks) :
    ∃ b, 1 ≤ b ∧ b ≤ 4 ∧ radix = 2 ^ b := by
  obtain ⟨-, rfl⟩ | ⟨-, rfl⟩ | ⟨-, rfl⟩ | ⟨-, rfl⟩ | ⟨-, rfl⟩ | ⟨-, rfl⟩ :=
      eq_of_mem_radixMarks h
  · exact ⟨4, by decide, by decide, rfl⟩
  · exact ⟨4, by decide, by decide, rfl⟩
  · exact ⟨3, by decide, by decide, rfl⟩
  · exact ⟨3, by decide, by decide, rfl⟩
  · exact ⟨1, by decide, by decide, rfl⟩
  · exact ⟨1, by decide, by decide, rfl⟩

theorem ofTrimmed_radix {mark : Char} (h : (mark, radix) ∈ radixMarks) (ds : List Char) :
    ofTrimmed ('0' :: mark :: ds) = ofRadix radix ds := by
  obtain ⟨rfl, rfl⟩ | ⟨rfl, rfl⟩ | ⟨rfl, rfl⟩ | ⟨rfl, rfl⟩ | ⟨rfl, rfl⟩ | ⟨rfl, rfl⟩ :=
      eq_of_mem_radixMarks h <;> rfl

theorem gathers_ofRadix {mark : Char} (h : (mark, radix) ∈ radixMarks) (hne : ds ≠ [])
    (hds : ∀ c ∈ ds, IsRadixDigit radix c) :
    Gathers radix (wholeOf radix ds) (ofRadix radix ds) := by
  obtain ⟨b, hb, hb', rfl⟩ := exists_bits h
  have hradix : 2 ^ b ≤ 2 ^ 4 := Nat.pow_le_pow_right (by decide) hb'
  have hvalues : ∀ c ∈ ds, digitValue c < 2 ^ b := fun c hc => (hds c hc).digitValue_lt hradix
  have hvalid : (ds.isEmpty || ds.any fun c => 2 ^ b ≤ digitValue c) = false := by
    simpa [hne] using hvalues
  rw [ofRadix, hvalid]
  exact gathers_foldl hb (by omega) hvalues

theorem gathers_ofString {mark : Char} (h : (mark, radix) ∈ radixMarks) (hne : ds ≠ [])
    (hds : ∀ c ∈ ds, IsRadixDigit radix c) :
    Gathers radix (wholeOf radix ds) (ofString (.ofList ('0' :: mark :: ds))) := by
  have hradix : radix ≤ 16 := by
    obtain ⟨b, -, hb, rfl⟩ := exists_bits h
    exact Nat.pow_le_pow_right (by decide : 0 < 2) hb
  have hmark : Text.isBlank mark = false := by
    obtain ⟨rfl, -⟩ | ⟨rfl, -⟩ | ⟨rfl, -⟩ | ⟨rfl, -⟩ | ⟨rfl, -⟩ | ⟨rfl, -⟩ :=
      eq_of_mem_radixMarks h <;> rfl
  have htrim : Text.trim ('0' :: mark :: ds) = '0' :: mark :: ds :=
    Text.trim_eq_self (List.forall_mem_cons.2 ⟨rfl, List.forall_mem_cons.2 ⟨hmark,
      fun c hc => (hds c hc).not_isBlank hradix⟩⟩)
  rw [ofString, String.toList_ofList, htrim, ofTrimmed_radix h]
  exact gathers_ofRadix h hne hds

/-- A radix literal of any length converts to the double nearest to its number, if this overflows or
no leading digits of it are halfway between two doubles with digits other than zero after them; and
to another double otherwise. -/
theorem isNearest_ofString_radix {mark : Char} (h : (mark, radix) ∈ radixMarks) (hne : ds ≠ [])
    (hds : ∀ c ∈ ds, IsRadixDigit radix c) :
    IsNearest (wholeOf radix ds) (ofString (.ofList ('0' :: mark :: ds))) ↔
      Exact.overflow ≤ wholeOf radix ds ∨ ¬ BeginsHalfway radix (wholeOf radix ds) :=
  (gathers_ofString h hne hds).isNearest_iff

/-- The number of these digits is `2 ^ 60 + 385`. All of them but the last are halfway between two
doubles, of which the greater one has an even mantissa, and this is the nearest to the number. -/
theorem isNearest_ofString_hexadecimal :
    IsNearest (wholeOf 16 "1000000000000181".toList) (ofString "0x1000000000000181") := by
  have hvalue : wholeOf 16 "1000000000000181".toList = 2 ^ 60 + 385 := by decide
  have hodd : ¬ IsHalfway ((2 ^ 60 + 385) / 16 ^ 1) := by
    rintro ⟨m, j, hlow, hhigh, heven, hm⟩
    have hj : j < 4 := by
      by_contra hj
      have hpow : 2 ^ 4 ≤ 2 ^ j := Nat.pow_le_pow_right (by decide) (by omega)
      have hmul := Nat.mul_le_mul_left (2 * m + 1) hpow
      omega
    interval_cases j <;> omega
  have hhalf : ¬ BeginsHalfway 16 (wholeOf 16 "1000000000000181".toList) := by
    rw [hvalue]
    rintro ⟨k, hhalf, hrest⟩
    obtain rfl | rfl | hk : k = 0 ∨ k = 1 ∨ 2 ≤ k := by omega
    · exact hrest (Nat.mod_one _)
    · exact hodd hhalf
    · have hle := le_of_isHalfway hhalf
      have hdiv : (2 ^ 60 + 385) / 16 ^ k ≤ (2 ^ 60 + 385) / 16 ^ 2 :=
        Nat.div_le_div_left (Nat.pow_le_pow_right (by decide) hk) (by decide)
      omega
  exact (isNearest_ofString_radix (by decide : ('x', 16) ∈ radixMarks)
    (by decide : "1000000000000181".toList ≠ []) (List.all_iff_forall_prop.1 (by decide))).2
    (.inr hhalf)

/-- The number of these digits is `2 ^ 60 + 129`, one more than halfway to `2 ^ 60 + 256`; what they
convert to is `2 ^ 60`. -/
theorem not_isNearest_ofString_hexadecimal :
    ¬ IsNearest (wholeOf 16 "1000000000000081".toList) (ofString "0x1000000000000081") := by
  have hvalue : wholeOf 16 "1000000000000081".toList = 2 ^ 60 + 129 := by decide
  have hgathers := gathers_ofString (by decide : ('x', 16) ∈ radixMarks)
    (by decide : "1000000000000081".toList ≠ []) (List.all_iff_forall_prop.1 (by decide))
  have hoverflow : ((2 ^ 60 + 129 : ℕ) : ℚ) < Exact.overflow :=
    calc ((2 ^ 60 + 129 : ℕ) : ℚ) < (2 ^ 53 - 1 / 2) * 2 ^ 60 := by norm_num
      _ ≤ (2 ^ 53 - 1 / 2) * 2 ^ 971 := by
        gcongr <;> norm_num
  have hhalf : BeginsHalfway 16 (2 ^ 60 + 129) :=
    ⟨1, ⟨2 ^ 52, 3, by decide, by decide, by decide, by decide⟩, by decide⟩
  rw [hvalue] at hgathers ⊢
  intro hnearest
  exact (hgathers.isNearest_iff.1 hnearest).elim (not_le.2 hoverflow) (not_not.2 hhalf)

end Number

end ScriptMinifier
