import Mathlib
import ScriptMinifier.Proofs.Nearest

namespace ScriptMinifier

open Float.Model (UnpackedFloat)

namespace Exact

variable {a b negative : Bool} {m n : ℕ} {q p : ℤ} {r s : ℚ} {x y : Float}

theorem value?_pack (negative : Bool) (h : Regular m q) (hq : q ≤ 971) :
    (ofFloat (pack negative m q)).value? = some (signed negative (m * 2 ^ q)) := by
  rw [ofFloat_pack h, Number.value?_double negative hq]
  rfl

theorem magnitude_pos (hm : m ≠ 0) (q : ℤ) : (0 : ℚ) < m * 2 ^ q := by
  have hpos : 0 < m := Nat.pos_of_ne_zero hm
  positivity

/-- Of regular parts the exponents decide first and then the mantissas. -/
theorem compare_magnitudes (hm : Regular m q) (hn : Regular n p) :
    (compare q p).then (compare m n) = compare (m * 2 ^ q : ℚ) (n * 2 ^ p) := by
  have hlt {m n : ℕ} {q p : ℤ} (hm : Regular m q) (hn : Regular n p)
      (h : q < p ∨ q = p ∧ m < n) : (m * 2 ^ q : ℚ) < n * 2 ^ p :=
    Shortest.lt_of_mem hm hn h (Shortest.value_mem m q) (Shortest.value_mem n p)
  rcases lt_trichotomy q p with hqp | rfl | hqp
  · rw [compare_lt_iff_lt.2 hqp, compare_lt_iff_lt.2 (hlt hm hn (.inl hqp))]
    rfl
  · rw [compare_eq_iff_eq.2 rfl]
    change compare m n = _
    rcases lt_trichotomy m n with hmn | rfl | hmn
    · rw [compare_lt_iff_lt.2 hmn, compare_lt_iff_lt.2 (hlt hm hn (.inr ⟨rfl, hmn⟩))]
    · rw [compare_eq_iff_eq.2 rfl, compare_eq_iff_eq.2 rfl]
    · rw [compare_gt_iff_gt.2 hmn, compare_gt_iff_gt.2 (hlt hn hm (.inr ⟨rfl, hmn⟩))]
  · rw [compare_gt_iff_gt.2 hqp, compare_gt_iff_gt.2 (hlt hn hm (.inl hqp))]
    rfl

theorem compare_parts (a b : Bool) (hm : Regular m q) (hn : Regular n p) :
    (parts a m q).compare (parts b n p) =
      some (compare (signed a (m * 2 ^ q)) (signed b (n * 2 ^ p))) := by
  by_cases hm0 : m = 0
  · subst hm0
    rw [parts, dif_pos rfl, Nat.cast_zero, zero_mul, signed_zero]
    by_cases hn0 : n = 0
    · subst hn0
      rw [parts, dif_pos rfl, Nat.cast_zero, zero_mul, signed_zero, compare_eq_iff_eq.2 rfl]
      rfl
    · have hpos := magnitude_pos hn0 p
      rw [parts, dif_neg hn0]
      cases b with
      | false =>
        rw [signed_false, compare_lt_iff_lt.2 hpos]
        rfl
      | true =>
        rw [signed_true, compare_gt_iff_gt.2 (neg_lt_zero.2 hpos)]
        rfl
  · have hpos := magnitude_pos hm0 q
    rw [parts, dif_neg hm0]
    by_cases hn0 : n = 0
    · subst hn0
      rw [parts, dif_pos rfl, Nat.cast_zero, zero_mul, signed_zero]
      cases a with
      | false =>
        rw [signed_false, compare_gt_iff_gt.2 hpos]
        rfl
      | true =>
        rw [signed_true, compare_lt_iff_lt.2 (neg_lt_zero.2 hpos)]
        rfl
    · have hpos' := magnitude_pos hn0 p
      rw [parts, dif_neg hn0]
      cases a <;> cases b
      case false.false =>
        rw [signed_false, signed_false, ← compare_magnitudes hm hn]
        rfl
      case false.true =>
        rw [signed_false, signed_true, compare_gt_iff_gt.2 (by linarith)]
        rfl
      case true.false =>
        rw [signed_false, signed_true, compare_lt_iff_lt.2 (by linarith)]
        rfl
      case true.true =>
        have hneg : compare (-(m * 2 ^ q : ℚ)) (-(n * 2 ^ p)) =
            (compare (m * 2 ^ q : ℚ) (n * 2 ^ p)).swap := by
          rcases lt_trichotomy (m * 2 ^ q : ℚ) (n * 2 ^ p) with h | h | h
          · rw [compare_lt_iff_lt.2 h, compare_gt_iff_gt.2 (neg_lt_neg h)]
            rfl
          · rw [h, compare_eq_iff_eq.2 rfl, compare_eq_iff_eq.2 rfl]
            rfl
          · rw [compare_gt_iff_gt.2 h, compare_lt_iff_lt.2 (neg_lt_neg h)]
            rfl
        rw [signed_true, signed_true, hneg, ← compare_magnitudes hm hn]
        rfl

/-- Doubles that have values compare as their values. -/
theorem compare_of_value? (hx : (ofFloat x).value? = some r) (hy : (ofFloat y).value? = some s) :
    x.toModel.unpack.compare y.toModel.unpack = some (compare r s) := by
  obtain ⟨a, m, q, hm, hq, rfl, rfl⟩ := Number.exists_pack_of_value? hx
  obtain ⟨b, n, p, hn, hp, rfl, rfl⟩ := Number.exists_pack_of_value? hy
  rw [unpack_pack hm hq, unpack_pack hn hp]
  exact compare_parts a b hm hn

theorem lt_iff (x y : Float) :
    x < y ↔ x.toModel.unpack.compare y.toModel.unpack = some .lt :=
  decide_eq_true_iff.trans beq_iff_eq

theorem le_iff (x y : Float) :
    x ≤ y ↔ (x.toModel.unpack.compare y.toModel.unpack).any (·.isLE) = true :=
  decide_eq_true_iff

theorem beq_iff (x y : Float) :
    (x == y) = true ↔ x.toModel.unpack.compare y.toModel.unpack = some .eq := by
  change (x.toModel.unpack.compare y.toModel.unpack == some .eq) = true ↔ _
  exact beq_iff_eq

theorem lt_iff_of_value? (hx : (ofFloat x).value? = some r) (hy : (ofFloat y).value? = some s) :
    x < y ↔ r < s := by
  rw [lt_iff, compare_of_value? hx hy, Option.some_inj, compare_lt_iff_lt]

theorem le_iff_of_value? (hx : (ofFloat x).value? = some r) (hy : (ofFloat y).value? = some s) :
    x ≤ y ↔ r ≤ s := by
  rw [le_iff, compare_of_value? hx hy, Option.any_some, Ordering.isLE_iff_ne_gt, ← not_lt]
  exact not_congr compare_gt_iff_gt

theorem beq_iff_of_value? (hx : (ofFloat x).value? = some r) (hy : (ofFloat y).value? = some s) :
    (x == y) = true ↔ r = s := by
  rw [beq_iff, compare_of_value? hx hy, Option.some_inj, compare_eq_iff_eq]

/-- Comparing the other way round. -/
theorem compare_comm (u v : UnpackedFloat) :
    v.compare u = (u.compare v).map Ordering.swap := by
  have hthen (q p : ℤ) (m n : ℕ) : ((compare q p).then (compare m n)).swap =
      (compare p q).then (compare n m) := by
    rw [Ordering.swap_then, ← Std.OrientedOrd.eq_swap, ← Std.OrientedOrd.eq_swap]
  cases u with
  | notANumber => cases v <;> rfl
  | infinity s =>
    cases v with
    | infinity t => cases s <;> cases t <;> rfl
    | _ => cases s <;> rfl
  | zero s =>
    cases v with
    | infinity t | finite t => cases t <;> rfl
    | _ => rfl
  | finite s m q hm =>
    cases v with
    | finite t n p hn =>
      cases s <;> cases t
      case negative.negative =>
        change some _ = some _
        rw [Ordering.swap_swap, hthen]
      case positive.positive =>
        change some _ = some _
        rw [hthen]
      all_goals rfl
    | infinity t => cases t <;> rfl
    | zero => cases s <;> rfl
    | notANumber => rfl

theorem beq_comm (x y : Float) : (x == y) = (y == x) := by
  rw [Bool.eq_iff_iff, beq_iff, beq_iff, compare_comm x.toModel.unpack]
  cases x.toModel.unpack.compare y.toModel.unpack with
  | none => simp
  | some o => cases o <;> simp

theorem lt_asymm (h : x < y) : ¬ y < x := by
  rw [lt_iff] at h ⊢
  rw [compare_comm x.toModel.unpack, h]
  decide

end Exact

end ScriptMinifier
