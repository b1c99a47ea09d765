import Mathlib.Data.Nat.Log
import Mathlib.Tactic.IntervalCases
import Mathlib.Tactic.Linarith
import Mathlib.Tactic.Positivity
import Mathlib.Tactic.Ring
import ScriptMinifier.Number.Layout
import ScriptMinifier.Number.Literal

namespace ScriptMinifier

namespace Number

variable {cs ds : List Char} {c : Char} {n : Nat}

theorem isDigit_eq (c : Char) : isDigit c = c.isDigit := by
  simp [isDigit, Char.isDigit, Char.le_def]

/-- The digits that a text begins with end before what is no digit. -/
theorem takeWhile_digits (hd : ∀ c ∈ ds, isDigit c = true)
    (hc : ∀ c ∈ cs.head?, isDigit c = false) : (ds ++ cs).takeWhile isDigit = ds := by
  rw [List.takeWhile_append_of_pos hd]
  cases cs with
  | nil => simp
  | cons c cs => simp [hc c rfl]

theorem dropWhile_digits (hd : ∀ c ∈ ds, isDigit c = true)
    (hc : ∀ c ∈ cs.head?, isDigit c = false) : (ds ++ cs).dropWhile isDigit = cs := by
  rw [List.dropWhile_append_of_pos hd]
  cases cs with
  | nil => rfl
  | cons c cs => simp [hc c rfl]

theorem isDigit_of_mem_toDigits (h : c ∈ Nat.toDigits 10 n) : isDigit c = true := by
  rw [isDigit_eq]
  exact Nat.isDigit_of_mem_toDigits (by decide) (by decide) h

theorem digitValue_digitChar (h : n < 16) : digitValue (Nat.digitChar n) = n := by
  interval_cases n <;> rfl

theorem natOfDigits_concat (cs : List Char) (c : Char) :
    natOfDigits (cs ++ [c]) = 10 * natOfDigits cs + digitValue c := by
  simp [natOfDigits]

/-- Digits that are written read back. -/
theorem natOfDigits_toDigits (n : Nat) : natOfDigits (Nat.toDigits 10 n) = n := by
  induction n using Nat.strongRecOn with
  | _ n ih =>
    by_cases hn : n < 10
    · rw [Nat.toDigits_of_lt_base hn]
      have hvalue : digitValue n.digitChar = n := digitValue_digitChar (by omega)
      simp [natOfDigits, hvalue]
    · have hlast : n % 10 < 16 := by omega
      rw [Nat.toDigits_of_base_le (by decide) (by omega), natOfDigits_concat,
        ih (n / 10) (by omega), digitValue_digitChar hlast]
      omega

/-- No number but zero is written with a leading zero. -/
theorem head?_toDigits_ne (hn : n ≠ 0) : (Nat.toDigits 10 n).head? ≠ some '0' := by
  induction n using Nat.strongRecOn with
  | _ n ih =>
    by_cases hlt : n < 10
    · rw [Nat.toDigits_of_lt_base hlt]
      interval_cases n <;> simp_all [Nat.digitChar]
    · rw [Nat.toDigits_of_base_le (by decide) (by omega),
        List.head?_append_of_ne_nil _ Nat.toDigits_ne_nil]
      exact ih (n / 10) (by omega) (by omega)

end Number

namespace Shortest

variable {i : Interval} {tie : TieRule} {c : Nat} {k scale : Int}

theorem unit_pos : 0 < unit scale k := by
  simp [unit, Nat.shiftLeft_eq]

namespace Interval

/-- A grid offers a point of the interval, or none of the two next to the value is one. -/
theorem nearest?_cases (i : Interval) (tie : TieRule) (k : Int) :
    (∃ c, i.nearest? tie k = some c ∧ i.contains c k = true) ∨
      i.nearest? tie k = none ∧
        i.contains (i.value * unit i.scale k / grid i.scale k) k = false := by
  unfold nearest?
  dsimp only
  generalize i.value * unit i.scale k / grid i.scale k = c
  split
  · rename_i hc _
    exact .inr ⟨rfl, hc⟩
  · rename_i hc _
    exact .inl ⟨c, rfl, hc⟩
  · rename_i _ hc
    exact .inl ⟨c + 1, rfl, hc⟩
  · rename_i hc hc'
    left
    cases tie with
    | up =>
      dsimp only
      split_ifs
      · exact ⟨c, rfl, hc⟩
      · exact ⟨c + 1, rfl, hc'⟩
      · exact ⟨c + 1, rfl, hc'⟩
    | even =>
      dsimp only
      split_ifs
      · exact ⟨c, rfl, hc⟩
      · exact ⟨c + 1, rfl, hc'⟩
      · exact ⟨c, rfl, hc⟩
      · exact ⟨c + 1, rfl, hc'⟩

theorem contains_of_nearest? (h : i.nearest? tie k = some c) : i.contains c k = true := by
  obtain ⟨c', hc', hcontains⟩ | ⟨hnone, -⟩ := i.nearest?_cases tie k
  · obtain rfl : c' = c := Option.some.inj (hc'.symm.trans h)
    exact hcontains
  · rw [hnone] at h
    cases h

theorem isSome_nearest? (h : i.contains (i.value * unit i.scale k / grid i.scale k) k = true) :
    (i.nearest? tie k).isSome = true := by
  obtain ⟨c, hc, -⟩ | ⟨-, hfalse⟩ := i.nearest?_cases tie k
  · rw [hc]
    rfl
  · rw [hfalse] at h
    cases h

/-- The search ends with a point of the interval, if it may go on to a grid that has one. -/
theorem contains_search {steps : Nat} (h : (i.nearest? tie (k - steps)).isSome = true) :
    i.contains (i.search tie steps k).digits (i.search tie steps k).exponent = true := by
  induction steps generalizing k with
  | zero =>
    obtain ⟨c, hc⟩ := Option.isSome_iff_exists.1 h
    have hc' : i.nearest? tie k = some c := by simpa using hc
    rw [search, hc']
    exact contains_of_nearest? hc'
  | succ steps ih =>
    rw [search]
    split
    · rename_i c hc
      exact contains_of_nearest? hc
    · refine ih ?_
      rwa [show k - 1 - (steps : Int) = k - ((steps + 1 : Nat) : Int) by omega]

theorem pos_of_contains (hlow : 0 < i.low) (h : i.contains c k = true) : 0 < c := by
  have hend : 0 < i.low * unit i.scale k := Nat.mul_pos hlow unit_pos
  have hpoint : 0 < c * grid i.scale k := by
    unfold contains at h
    dsimp only at h
    split_ifs at h
    · simp only [Bool.and_eq_true, decide_eq_true_eq] at h
      omega
    · simp only [Bool.and_eq_true, decide_eq_true_eq] at h
      omega
  exact Nat.pos_of_mul_pos_right hpoint

end Interval

variable {m : Nat} {e : Int}

theorem low_pos (hm : 0 < m) : 0 < (interval m e).low := by
  unfold interval
  dsimp only
  split <;> omega

/-- A value that lies on a grid is a point of its interval. -/
theorem contains_value (hm : 0 < m)
    (hgrid : grid (e - 2) k ∣ 4 * m * unit (e - 2) k) :
    (interval m e).contains ((interval m e).value * unit (interval m e).scale k /
      grid (interval m e).scale k) k = true := by
  have hunit : 0 < unit (e - 2) k := unit_pos
  have hlow : (interval m e).low * unit (e - 2) k < 4 * m * unit (e - 2) k := by
    refine Nat.mul_lt_mul_of_pos_right ?_ hunit
    unfold interval
    dsimp only
    split <;> omega
  have hhigh : 4 * m * unit (e - 2) k < (4 * m + 2) * unit (e - 2) k :=
    Nat.mul_lt_mul_of_pos_right (by omega) hunit
  change (interval m e).contains (4 * m * unit (e - 2) k / grid (e - 2) k) k = true
  have hpoint := Nat.div_mul_cancel hgrid
  generalize 4 * m * unit (e - 2) k / grid (e - 2) k = c at hpoint
  have hclosed : (interval m e).low * unit (e - 2) k ≤ c * grid (e - 2) k ∧
      c * grid (e - 2) k ≤ (4 * m + 2) * unit (e - 2) k := by omega
  have hopen : (interval m e).low * unit (e - 2) k < c * grid (e - 2) k ∧
      c * grid (e - 2) k < (4 * m + 2) * unit (e - 2) k := by omega
  unfold Interval.contains
  dsimp only
  split
  · exact Bool.and_eq_true_iff.2 ⟨decide_eq_true hclosed.1, decide_eq_true hclosed.2⟩
  · exact Bool.and_eq_true_iff.2 ⟨decide_eq_true hopen.1, decide_eq_true hopen.2⟩

/-- Every double lies on the grid of its last place, and a whole one on that of the units. -/
theorem grid_dvd (m : Nat) (e : Int) :
    grid (e - 2) (min e 0) ∣ 4 * m * unit (e - 2) (min e 0) := by
  have hgrid : grid (e - 2) (min e 0) = 2 ^ (2 - e).toNat := by
    rw [grid, show (min e 0).toNat = 0 by omega, show -(e - 2) = 2 - e by omega,
      Nat.shiftLeft_eq, Nat.pow_eq, Nat.pow_zero, Nat.one_mul]
  rw [hgrid]
  rcases Int.le_total e 0 with he | he
  · have hunit : unit (e - 2) (min e 0) = 10 ^ (-e).toNat := by
      rw [unit, show (e - 2).toNat = 0 by omega, show min e 0 = e by omega, Nat.shiftLeft_zero,
        Nat.pow_eq]
    have hpow : 4 * m * 10 ^ (-e).toNat = 2 ^ (2 - e).toNat * (m * 5 ^ (-e).toNat) := by
      rw [show (2 - e).toNat = (-e).toNat + 2 by omega, show 10 = 2 * 5 by rfl, Nat.mul_pow]
      ring
    rw [hunit, hpow]
    exact Nat.dvd_mul_right _ _
  · have hfour : 2 ^ (2 - e).toNat ∣ 4 :=
      pow_dvd_pow 2 (show (2 - e).toNat ≤ 2 by omega)
    exact (hfour.mul_right m).mul_right _

theorem le_ceiling (m : Nat) (e : Int) : min e 0 ≤ ceiling (m.log2 + e + 2) := by
  unfold ceiling
  split <;> omega

end Shortest

open Shortest

/-- The shortest decimal lies in the interval. -/
theorem Decimal.contains_shortest {tie : TieRule} {m : Nat} {e : Int} (hm : 0 < m) :
    (interval m e).contains (Decimal.shortest tie m e).digits (Decimal.shortest tie m e).exponent =
      true := by
  have htop := le_ceiling m e
  refine Interval.contains_search ?_
  rw [show ceiling (m.log2 + e + 2) - ((ceiling (m.log2 + e + 2) - min e 0).toNat : Int) = min e 0
    by omega]
  exact Interval.isSome_nearest? (contains_value hm (grid_dvd m e))

theorem Decimal.shortest_pos {tie : TieRule} {m : Nat} {e : Int} (hm : 0 < m) :
    0 < (Decimal.shortest tie m e).digits :=
  Interval.pos_of_contains (low_pos hm) (contains_shortest hm)

end ScriptMinifier
