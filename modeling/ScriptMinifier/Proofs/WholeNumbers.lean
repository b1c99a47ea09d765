import Mathlib
import ScriptMinifier.Proofs.Conversion
import ScriptMinifier.Proofs.Decimals

namespace ScriptMinifier

/-- A whole number has the mantissa that shifting it to full width gives. -/
theorem Number.exists_shift {n : Nat} (hn : 0 < n) (hlt : n < 2 ^ 53) :
    ∃ s : Nat, s ≤ 52 ∧ 2 ^ 52 ≤ n * 2 ^ s ∧ n * 2 ^ s < 2 ^ 53 ∧
      Exact.ofFloat (Float.ofNat n) = .finite false (n * 2 ^ s) (-s) := by
  obtain ⟨m, q, hregular, hq, hvalue, hx⟩ := holds_ofNat hlt
  have hm : m ≠ 0 := by
    rintro rfl
    simp at hvalue
    omega
  have hexact : Exact.ofFloat (Float.ofNat n) = .finite false m q := by
    rw [hx, Exact.ofFloat_pack hregular, Exact.double, if_neg hm, if_pos hq]
  have hfull := hregular.full
  have hqle : q ≤ 0 := by
    by_contra hpos
    obtain ⟨k, rfl⟩ : ∃ k : ℕ, q = k := Int.eq_ofNat_of_zero_le (by omega)
    have hnat : n = m * 2 ^ k := by exact_mod_cast hvalue
    have htwo : 2 ^ 1 ≤ 2 ^ k := Nat.pow_le_pow_right (by decide) (by omega)
    have hmul := Nat.mul_le_mul_left m htwo
    omega
  obtain ⟨s, rfl⟩ : ∃ s : ℕ, q = -s := ⟨q.natAbs, by omega⟩
  have hnat : m = n * 2 ^ s := by
    have hrat : (m : ℚ) = n * 2 ^ s := by
      rw [hvalue, mul_assoc, ← zpow_natCast, ← zpow_add₀ (by norm_num)]
      simp
    exact_mod_cast hrat
  have hs : s ≤ 52 := by
    have hpow := (Nat.le_mul_of_pos_left (2 ^ s) hn).trans_lt (hnat ▸ hregular.lt)
    exact Nat.le_of_lt_succ ((Nat.pow_lt_pow_iff_right (by decide)).1 hpow)
  subst hnat
  exact ⟨s, hs, by omega, hregular.lt, hexact⟩

namespace Shortest

variable {i : Interval} {tie : TieRule} {c n s j steps : Nat} {k : Int}

/-- The search goes no further than to a grid that has a point of the interval. -/
theorem Interval.le_search (h : (i.nearest? tie (k - j)).isSome = true) (hj : j ≤ steps) :
    k - j ≤ (i.search tie steps k).exponent := by
  induction steps generalizing k j with
  | zero =>
    obtain rfl : j = 0 := by omega
    rw [search]
    simp
  | succ steps ih =>
    rw [search]
    split
    · simp
    · rename_i hnone
      cases j with
      | zero =>
        rw [Int.natCast_zero, Int.sub_zero, hnone] at h
        cases h
      | succ j =>
        have hk : k - 1 - (j : Int) = k - (j + 1 : Nat) := by omega
        rw [← hk] at h ⊢
        exact ih h (by omega)

theorem Interval.le_of_contains (h : i.contains c k = true) :
    i.low * unit i.scale k ≤ c * grid i.scale k ∧ c * grid i.scale k ≤ i.high * unit i.scale k := by
  unfold contains at h
  dsimp only at h
  split_ifs at h
  · simpa only [Bool.and_eq_true, decide_eq_true_eq] using h
  · simp only [Bool.and_eq_true, decide_eq_true_eq] at h
    exact ⟨h.1.le, h.2.le⟩

end Shortest

open Shortest

variable {n s : Nat}

theorem Shortest.unit_whole (s k : Nat) : unit (-s - 2) k = 1 := by
  have hscale : (-(s : Int) - 2).toNat = 0 := by omega
  have hk : (-(k : Int)).toNat = 0 := by omega
  rw [unit, hscale, hk]
  rfl

theorem Shortest.grid_whole (s k : Nat) : grid (-s - 2) k = 10 ^ k * 2 ^ (s + 2) := by
  have hscale : (-(-(s : Int) - 2)).toNat = s + 2 := by omega
  rw [grid, hscale, Int.toNat_natCast, Nat.shiftLeft_eq, Nat.pow_eq]

/-- A point of the interval that is whole is the number itself. -/
theorem Shortest.eq_of_contains {c k : Nat} (h : (interval (n * 2 ^ s) (-s)).contains c k = true) :
    c * 10 ^ k = n := by
  obtain ⟨hlow, hhigh⟩ := Interval.le_of_contains h
  change _ * unit (-s - 2) k ≤ c * grid (-s - 2) k at hlow
  change c * grid (-s - 2) k ≤ (4 * (n * 2 ^ s) + 2) * unit (-s - 2) k at hhigh
  have hends : 4 * (n * 2 ^ s) ≤ (interval (n * 2 ^ s) (-s)).low + 2 := by
    unfold interval
    dsimp only
    split <;> omega
  have hpoint : c * (10 ^ k * 2 ^ (s + 2)) = c * 10 ^ k * 2 ^ (s + 2) := by ring
  have hvalue : 4 * (n * 2 ^ s) = n * 2 ^ (s + 2) := by ring
  have hfour : 2 ^ 2 ≤ 2 ^ (s + 2) := Nat.pow_le_pow_right (by decide) (by omega)
  rw [unit_whole, grid_whole, Nat.mul_one, hpoint] at hlow hhigh
  rw [hvalue] at hhigh hends
  generalize c * 10 ^ k = x at hlow hhigh ⊢
  obtain hlt | heq | hgt := Nat.lt_trichotomy x n
  · have hmul := Nat.mul_le_mul_right (2 ^ (s + 2)) (Nat.succ_le_of_lt hlt)
    rw [Nat.succ_mul] at hmul
    omega
  · exact heq
  · have hmul := Nat.mul_le_mul_right (2 ^ (s + 2)) (Nat.succ_le_of_lt hgt)
    rw [Nat.succ_mul] at hmul
    omega

/-- The shortest decimal of a whole number is the number. -/
theorem Decimal.shortest_whole (hlow : 2 ^ 52 ≤ n * 2 ^ s) (hhigh : n * 2 ^ s < 2 ^ 53)
    (hs : s ≤ 52) (tie : TieRule) :
    ∃ c k : Nat, Decimal.shortest tie (n * 2 ^ s) (-s) = ⟨c, k⟩ ∧ c * 10 ^ k = n := by
  have hm : 0 < n * 2 ^ s := by omega
  have hlog : (n * 2 ^ s).log2 = 52 := (Nat.log2_eq_iff hm.ne').2 ⟨hlow, hhigh⟩
  obtain ⟨top, htop⟩ : ∃ top : Nat, ceiling ((n * 2 ^ s).log2 + -s + 2) = top := by
    refine Int.eq_ofNat_of_zero_le ?_
    rw [hlog, ceiling]
    split <;> omega
  have hgrid : grid (-s - 2) 0 ∣ 4 * (n * 2 ^ s) * unit (-s - 2) 0 := by
    have hvalue : 4 * (n * 2 ^ s) = 10 ^ 0 * 2 ^ (s + 2) * n := by ring
    rw [← Int.natCast_zero, grid_whole, unit_whole, Nat.mul_one, hvalue]
    exact Nat.dvd_mul_right _ _
  have hunits : ((interval (n * 2 ^ s) (-s)).nearest? tie 0).isSome = true :=
    Interval.isSome_nearest? (contains_value hm hgrid)
  have hexponent : 0 ≤ (Decimal.shortest tie (n * 2 ^ s) (-s)).exponent := by
    have hzero : (top : Int) - top = 0 := Int.sub_self _
    rw [← hzero] at hunits ⊢
    rw [Decimal.shortest, htop]
    exact Interval.le_search hunits (by omega)
  obtain ⟨k, hk⟩ := Int.eq_ofNat_of_zero_le hexponent
  have hcontains : (interval (n * 2 ^ s) (-s)).contains
      (Decimal.shortest tie (n * 2 ^ s) (-s)).digits
      (Decimal.shortest tie (n * 2 ^ s) (-s)).exponent = true :=
    Decimal.contains_shortest hm
  rw [hk] at hcontains
  refine ⟨_, k, ?_, eq_of_contains hcontains⟩
  rw [← hk]

namespace Number

theorem toDigits_mul_pow {c : Nat} (hc : 0 < c) (k : Nat) :
    Nat.toDigits 10 (c * 10 ^ k) = Nat.toDigits 10 c ++ List.replicate k '0' := by
  induction k with
  | zero => simp
  | succ k ih =>
    have hpos : 0 < c * 10 ^ k := by positivity
    have happend := Nat.toDigits_append_toDigits (b := 10) (d := 0) (by decide) hpos (by decide)
    have hmul : c * 10 ^ (k + 1) = 10 * (c * 10 ^ k) + 0 := by ring
    rw [hmul, ← happend, ih, List.append_assoc, List.replicate_succ']
    rfl

/-- Whole numbers are not negative. -/
theorem ofFloat_ofNat {n : Nat} (hn : n < 2 ^ 53) :
    ∃ m e, Exact.ofFloat (Float.ofNat n) = .finite false m e := by
  by_cases hzero : n = 0
  · subst hzero
    exact ⟨0, 0, rfl⟩
  · obtain ⟨s, -, -, -, hexact⟩ := exists_shift (Nat.pos_of_ne_zero hzero) hn
    exact ⟨_, _, hexact⟩

/-- Whole numbers are written as their digits. -/
theorem sourceText_ofNat {n : Nat} (hn : n < 2 ^ 53) :
    sourceText (Float.ofNat n) = Nat.toDigits 10 n := by
  by_cases hzero : n = 0
  · subst hzero
    rfl
  have hpos : 0 < n := Nat.pos_of_ne_zero hzero
  obtain ⟨s, hs, hlow, hhigh, hexact⟩ := exists_shift hpos hn
  obtain ⟨c, k, hshortest, hvalue⟩ := Decimal.shortest_whole hlow hhigh hs .up
  have hc : 0 < c := by
    by_contra hc
    obtain rfl : c = 0 := by omega
    omega
  have hdigits : Nat.toDigits 10 n = Nat.toDigits 10 c ++ List.replicate k '0' := by
    rw [← hvalue, toDigits_mul_pow hc]
  have hlength : (Nat.toDigits 10 c).length + k ≤ 16 := by
    have hn' : n < 10 ^ 16 := by omega
    have hle := (Nat.length_toDigits_le_iff (b := 10) (by decide) (by decide)).2 hn'
    rwa [hdigits, List.length_append, List.length_replicate] at hle
  have hfirst : 0 < (Nat.toDigits 10 c).length := Nat.length_toDigits_pos
  have hne : n * 2 ^ s ≠ 0 := by omega
  have hplace : Layout.script.positive (n * 2 ^ s) (-s) = Nat.toDigits 10 n := by
    have hpoint : Layout.script.lowest ≤ (k : Int) + (Nat.toDigits 10 c).length ∧
        (k : Int) + (Nat.toDigits 10 c).length ≤ Layout.script.highest := by
      change (-5 : Int) ≤ _ ∧ _ ≤ (21 : Int)
      omega
    have hwhole : ((Nat.toDigits 10 c).length : Int) ≤ k + (Nat.toDigits 10 c).length := by omega
    have hright : ¬ (k : Int) + (Nat.toDigits 10 c).length ≤ 0 := by omega
    have hzeros :
        ((k : Int) + (Nat.toDigits 10 c).length).toNat - (Nat.toDigits 10 c).length = k := by
      omega
    rw [Layout.positive, show Layout.script.tie = .up from rfl, hshortest, hdigits]
    dsimp only
    rw [Layout.place, if_pos hpoint, if_neg hright, if_pos hwhole, hzeros]
    simp [Layout.script]
  rw [sourceText, hexact]
  dsimp only
  rw [if_neg hne, text, hexact]
  dsimp only
  rw [if_neg hne, hplace]
  rfl

end Number

end ScriptMinifier
