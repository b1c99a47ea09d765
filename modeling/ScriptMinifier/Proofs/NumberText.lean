import Mathlib
import ScriptMinifier.Proofs.Conversion
import ScriptMinifier.Proofs.Literals

namespace ScriptMinifier

open Shortest (interval)
open Rounding

namespace Number

variable {cs ds : List Char} {c : Char} {x : Float}

theorem natOfDigits_append (cs ds : List Char) :
    natOfDigits (cs ++ ds) = natOfDigits cs * 10 ^ ds.length + natOfDigits ds := by
  induction ds using List.reverseRecOn with
  | nil => simp [natOfDigits]
  | append_singleton ds d ih =>
    rw [← List.append_assoc, natOfDigits_concat, natOfDigits_concat, ih, List.length_append,
      List.length_singleton, pow_succ]
    ring

theorem natOfDigits_zeros (k : ℕ) : natOfDigits (List.replicate k '0') = 0 := by
  induction k with
  | zero => rfl
  | succ k ih =>
    rw [List.replicate_succ', natOfDigits_concat, ih]
    rfl

theorem isDigit_of_mem_zeros {k : ℕ} (h : c ∈ List.replicate k '0') : isDigit c = true := by
  rw [List.eq_of_mem_replicate h]
  rfl

end Number

namespace Decimal

open Number

variable {whole part rest ds : List Char} {e : ℤ}

/-- A literal that is read as a decimal with this value. -/
def Denotes (cs : List Char) (r : ℚ) : Prop := ∃ d, parse? cs = some d ∧ d.value = r

theorem denotes_whole (hne : whole ≠ []) (hwhole : ∀ c ∈ whole, isDigit c = true)
    (hrest : ∀ c ∈ rest.head?, isDigit c = false ∧ c ≠ '.') (he : exponentOf? rest = some e) :
    Denotes (whole ++ rest) (natOfDigits whole * 10 ^ e) :=
  ⟨⟨natOfDigits whole, e⟩, by rw [parse?_whole hne hwhole hrest, he]; rfl, rfl⟩

theorem denotes_point (hne : whole ++ part ≠ []) (hwhole : ∀ c ∈ whole, isDigit c = true)
    (hpart : ∀ c ∈ part, isDigit c = true) (hrest : ∀ c ∈ rest.head?, isDigit c = false)
    (he : exponentOf? rest = some e) :
    Denotes (whole ++ '.' :: (part ++ rest))
      (natOfDigits (whole ++ part) * 10 ^ (e - part.length)) :=
  ⟨⟨natOfDigits (whole ++ part), e - part.length⟩,
    by rw [parse?_point hne hwhole hpart hrest, he]; rfl, rfl⟩

theorem denotes_digits (hne : whole ≠ []) (hwhole : ∀ c ∈ whole, isDigit c = true) :
    Denotes whole (natOfDigits whole) := by
  have hread := denotes_whole hne hwhole (nofun : ∀ c ∈ ([] : List Char).head?, _) rfl
  rwa [List.append_nil, zpow_zero, mul_one] at hread

theorem denotes_mantissa (hne : whole ++ part ≠ []) (hwhole : ∀ c ∈ whole, isDigit c = true)
    (hpart : ∀ c ∈ part, isDigit c = true) :
    Denotes (whole ++ '.' :: part) (natOfDigits (whole ++ part) * 10 ^ (-part.length : ℤ)) := by
  have hread := denotes_point hne hwhole hpart (nofun : ∀ c ∈ ([] : List Char).head?, _) rfl
  rwa [List.append_nil, zero_sub] at hread

/-- An exponent is read as it is written. -/
theorem exponentOf?_written (e : ℤ) :
    exponentOf? (['e', if e < 0 then '-' else '+'] ++ Nat.toDigits 10 e.natAbs) = some e := by
  have hne : Nat.toDigits 10 e.natAbs ≠ [] := Nat.toDigits_ne_nil
  have hds : ∀ c ∈ Nat.toDigits 10 e.natAbs, isDigit c = true := fun c => isDigit_of_mem_toDigits
  by_cases he : e < 0
  · rw [if_pos he]
    change exponent? ('-' :: Nat.toDigits 10 e.natAbs) = _
    rw [exponent?_minus hne hds, natOfDigits_toDigits, show -(e.natAbs : ℤ) = e by omega]
  · rw [if_neg he]
    change exponent? ('+' :: Nat.toDigits 10 e.natAbs) = _
    rw [exponent?_plus hne hds, natOfDigits_toDigits, show (e.natAbs : ℤ) = e by omega]

/-- The point stands before the digits, with zeros between. -/
theorem denotes_leading (hds : ∀ c ∈ ds, isDigit c = true) (k : ℕ) :
    Denotes (['0', '.'] ++ List.replicate k '0' ++ ds)
      (natOfDigits ds * 10 ^ (-k - ds.length : ℤ)) := by
  have hzero : ∀ c ∈ ['0'], isDigit c = true := List.forall_mem_singleton.2 rfl
  have hzeros : ∀ c ∈ List.replicate k '0' ++ ds, isDigit c = true :=
    List.forall_mem_append.2 ⟨fun c => isDigit_of_mem_zeros, hds⟩
  have hvalue : natOfDigits (['0'] ++ (List.replicate k '0' ++ ds)) = natOfDigits ds := by
    rw [natOfDigits_append, natOfDigits_append, natOfDigits_zeros, Nat.zero_mul, Nat.zero_add]
    exact Nat.add_eq_right.2 (Nat.mul_eq_zero.2 (.inl rfl))
  have hlength : (-(List.replicate k '0' ++ ds).length : ℤ) = -k - ds.length := by
    rw [List.length_append, List.length_replicate]
    push_cast
    ring
  have hread := denotes_mantissa (List.cons_ne_nil _ _) hzero hzeros
  rwa [hvalue, hlength] at hread

section

variable (hne : ds ≠ []) (hds : ∀ c ∈ ds, isDigit c = true)
include hne hds

/-- The point would stand after the digits, with zeros between. -/
theorem denotes_trailing (k : ℕ) (fraction : Bool) :
    Denotes (ds ++ List.replicate k '0' ++ if fraction then ['.', '0'] else [])
      (natOfDigits ds * 10 ^ (k : ℤ)) := by
  have hwhole : ∀ c ∈ ds ++ List.replicate k '0', isDigit c = true :=
    List.forall_mem_append.2 ⟨hds, fun c => isDigit_of_mem_zeros⟩
  have hne' : ds ++ List.replicate k '0' ≠ [] := List.append_ne_nil_of_left_ne_nil hne _
  have hvalue : (natOfDigits (ds ++ List.replicate k '0') : ℚ) = natOfDigits ds * 10 ^ (k : ℤ) := by
    rw [natOfDigits_append, natOfDigits_zeros, List.length_replicate, zpow_natCast]
    push_cast
    ring
  cases fraction with
  | false =>
    have hread := denotes_digits hne' hwhole
    rw [hvalue] at hread
    rwa [if_neg Bool.false_ne_true, List.append_nil]
  | true =>
    have hzero : ∀ c ∈ ['0'], isDigit c = true := List.forall_mem_singleton.2 rfl
    have htenth : (natOfDigits (ds ++ List.replicate k '0' ++ ['0']) : ℚ) * 10 ^ (-1 : ℤ) =
        natOfDigits ds * 10 ^ (k : ℤ) := by
      rw [natOfDigits_concat, show digitValue '0' = 0 by rfl, ← hvalue]
      push_cast
      ring
    have hread := denotes_mantissa (List.append_ne_nil_of_left_ne_nil hne' _) hwhole hzero
    rwa [List.length_singleton, Nat.cast_one, htenth] at hread

/-- The point stands among the digits. -/
theorem denotes_split {k : ℕ} (hk : k ≤ ds.length) : Denotes (ds.take k ++ '.' :: ds.drop k)
    (natOfDigits ds * 10 ^ (k - ds.length : ℤ)) := by
  have hread := denotes_mantissa (by rwa [List.take_append_drop k ds])
    (fun c hc => hds c (List.mem_of_mem_take hc)) (fun c hc => hds c (List.mem_of_mem_drop hc))
  have hlength : (-(ds.drop k).length : ℤ) = k - ds.length := by
    rw [List.length_drop]
    omega
  rwa [List.take_append_drop, hlength] at hread

/-- The point stands after the first digit, and an exponent follows. -/
theorem denotes_exponent (e : ℤ) :
    Denotes (ds.take 1 ++ (if ds.length ≤ 1 then [] else '.' :: ds.drop 1) ++
      ['e', if e < 0 then '-' else '+'] ++ Nat.toDigits 10 e.natAbs)
      (natOfDigits ds * 10 ^ (e + 1 - ds.length)) := by
  have hlength : 0 < ds.length := List.length_pos_iff.2 hne
  have hmark : ∀ c ∈ (['e', if e < 0 then '-' else '+'] ++ Nat.toDigits 10 e.natAbs).head?,
      isDigit c = false ∧ c ≠ '.' := by
    rintro _ ⟨⟩
    decide
  rw [List.append_assoc]
  by_cases hone : ds.length ≤ 1
  · have hread := denotes_whole hne hds hmark (exponentOf?_written e)
    rwa [if_pos hone, List.append_nil, List.take_of_length_le hone,
      show e + 1 - (ds.length : ℤ) = e by omega]
  · have hread := denotes_point (by rwa [List.take_append_drop 1 ds])
      (fun c hc => hds c (List.mem_of_mem_take hc)) (fun c hc => hds c (List.mem_of_mem_drop hc))
      (fun c hc => (hmark c hc).1) (exponentOf?_written e)
    have hplaces : e - ((ds.drop 1).length : ℤ) = e + 1 - ds.length := by
      rw [List.length_drop]
      omega
    rw [List.take_append_drop, hplaces] at hread
    rwa [if_neg hone, List.append_assoc, List.cons_append]

/-- Digits are read as the decimal that they stand for, wherever a layout places the point. -/
theorem denotes_place (layout : Layout) (point : ℤ) :
    Denotes (layout.place ds point) (natOfDigits ds * 10 ^ (point - ds.length)) := by
  unfold Layout.place
  dsimp only
  by_cases hrange : layout.lowest ≤ point ∧ point ≤ layout.highest
  · rw [if_pos hrange]
    by_cases hleft : point ≤ 0
    · rw [if_pos hleft]
      have hread := denotes_leading hds (-point).toNat
      rwa [show -((-point).toNat : ℤ) = point by omega] at hread
    by_cases hright : (ds.length : ℤ) ≤ point
    · rw [if_neg hleft, if_pos hright]
      have hread := denotes_trailing hne hds (point.toNat - ds.length) layout.fraction
      rwa [show ((point.toNat - ds.length : ℕ) : ℤ) = point - ds.length by omega] at hread
    · rw [if_neg hleft, if_neg hright]
      have hread := denotes_split hne hds (by omega : point.toNat ≤ ds.length)
      rwa [show (point.toNat : ℤ) = point by omega] at hread
  · rw [if_neg hrange]
    have hread := denotes_exponent hne hds (point - 1)
    rwa [show point - 1 + 1 = point by omega] at hread

end

/-- A double is written as the shortest decimal in its interval. -/
theorem denotes_positive (layout : Layout) (m : ℕ) (q : ℤ) :
    Denotes (layout.positive m q) (Decimal.shortest layout.tie m q).value := by
  rw [Layout.positive]
  generalize Decimal.shortest layout.tie m q = d
  have hne : Nat.toDigits 10 d.digits ≠ [] := Nat.toDigits_ne_nil
  have hread := denotes_place hne (fun c => isDigit_of_mem_toDigits) layout
    (d.exponent + (Nat.toDigits 10 d.digits).length)
  rwa [natOfDigits_toDigits, add_sub_cancel_right] at hread

end Decimal

namespace Number

open Decimal

variable {cs : List Char} {c : Char} {d : Decimal} {x : Float} {negative : Bool} {m : ℕ} {q : ℤ}
  {r : ℚ}

/-- A text without sign and radix. -/
theorem ofTrimmed_eq (hne : cs ≠ []) (hsign : ∀ c ∈ cs.head?, c ∉ ['+', '-'])
    (hradix : ∀ c ds, cs = '0' :: c :: ds → c ∉ ['x', 'X', 'o', 'O', 'b', 'B']) :
    ofTrimmed cs = ofUnsigned cs := by
  unfold ofTrimmed
  split
  case h_1 => exact absurd rfl hne
  case h_8 => exact absurd (by simp) (hsign _ rfl)
  case h_9 => exact absurd (by simp) (hsign _ rfl)
  case h_10 => rfl
  all_goals exact absurd (by simp) (hradix _ _ rfl)

theorem ofTrimmed_literal (h : IsLiteral cs) : ofTrimmed cs = ofUnsigned cs := by
  obtain ⟨c, rest, rfl, hhead⟩ := h.head
  refine ofTrimmed_eq (List.cons_ne_nil _ _) ?_ fun mark ds hcs hmark => ?_
  · rintro _ ⟨⟩ hsign
    simp only [List.mem_cons, List.not_mem_nil, or_false] at hsign
    obtain rfl | rfl := hsign <;> revert hhead <;> decide
  · have hmem := h.mem (c := mark) (by simp [hcs])
    simp only [List.mem_cons, List.not_mem_nil, or_false] at hmark
    obtain rfl | rfl | rfl | rfl | rfl | rfl := hmark <;> revert hmem <;> decide

theorem ofUnsigned_literal (h : parse? cs = some d) : ofUnsigned cs = d.toFloat := by
  have hinfinity : cs ≠ "Infinity".toList := by
    rintro rfl
    cases h
  rw [ofUnsigned, if_neg hinfinity, h]

theorem ofString_literal (h : parse? cs = some d) : ofString (.ofList cs) = d.toFloat := by
  have hliteral := isSome_parse?.1 (Option.isSome_of_eq_some h)
  have htrim : Text.trim cs = cs := Text.trim_eq_self fun c hc => hliteral.not_isBlank hc
  rw [ofString, String.toList_ofList, htrim, ofTrimmed_literal hliteral, ofUnsigned_literal h]

theorem ofString_minus (h : parse? cs = some d) :
    ofString (.ofList ('-' :: cs)) = -1.0 * d.toFloat := by
  have hliteral := isSome_parse?.1 (Option.isSome_of_eq_some h)
  have htrim : Text.trim ('-' :: cs) = '-' :: cs :=
    Text.trim_eq_self (List.forall_mem_cons.2 ⟨rfl, fun c hc => hliteral.not_isBlank hc⟩)
  rw [ofString, String.toList_ofList, htrim]
  change -1.0 * ofUnsigned cs = _
  rw [ofUnsigned_literal h]

/-- What is read as a decimal in the interval of a double converts to it, and with a sign to the
double with this sign. -/
theorem ofString_denotes (h : Regular m q) (hcs : Denotes cs r) (hr : r ∈ interval m q) :
    ofString (.ofList ((if negative then ['-'] else []) ++ cs)) = Exact.pack negative m q := by
  obtain ⟨d, hparse, rfl⟩ := hcs
  cases negative with
  | false =>
    change ofString (.ofList cs) = _
    rw [ofString_literal hparse, Decimal.toFloat_of_mem h hr]
  | true =>
    change ofString (.ofList ('-' :: cs)) = _
    rw [ofString_minus hparse, Decimal.toFloat_of_mem h hr, sign_mul_pack ofFloat_neg_one h]
    rfl

theorem ofFloat_nan : Exact.ofFloat nan = .nan := by
  decide

theorem ofFloat_infinity : Exact.ofFloat infinity = .infinite false := by
  decide

theorem ofFloat_neg_infinity : Exact.ofFloat (-1.0 * infinity) = .infinite true := by
  decide

theorem shortest_mem {tie : TieRule} (hm : 0 < m) :
    (Decimal.shortest tie m q).value ∈ interval m q :=
  Shortest.contains_iff.1 (Decimal.contains_shortest hm)

theorem pack_beq_zero (h : Regular m q) (hq : q ≤ 971) :
    (Exact.pack negative m q == 0.0) = decide (m = 0) := by
  have hzero : (0.0 : Float).toModel.unpack = .zero .positive := rfl
  change ((Exact.pack negative m q).toModel.unpack).beq (0.0 : Float).toModel.unpack = _
  rw [hzero, Exact.unpack_pack h hq, Exact.parts]
  by_cases hm : m = 0
  · rw [dif_pos hm, decide_eq_true hm]
    rfl
  · rw [dif_neg hm, decide_eq_false hm]
    cases negative <;> rfl

theorem text_finite (h : Exact.ofFloat x = .finite negative m q) (hm : m ≠ 0) :
    text x = (if negative then ['-'] else []) ++ Layout.script.positive m q := by
  rw [text, h]
  exact if_neg hm

/-- What is written converts back to the number, but for the sign of a zero. -/
theorem ofString_text_eq (x : Float) :
    ofString (.ofList (text x)) = if x == 0.0 then 0.0 else x := by
  obtain hx | ⟨negative, hx⟩ | ⟨negative, m, q, hregular, hq, rfl⟩ := Exact.pack_cases x
  · obtain rfl : x = nan := Exact.ofFloat_injective (hx.trans ofFloat_nan.symm)
    rfl
  · cases negative with
    | false =>
      obtain rfl : x = infinity := Exact.ofFloat_injective (hx.trans ofFloat_infinity.symm)
      rfl
    | true =>
      obtain rfl : x = -1.0 * infinity :=
        Exact.ofFloat_injective (hx.trans ofFloat_neg_infinity.symm)
      rfl
  · rw [pack_beq_zero hregular hq]
    by_cases hm : m = 0
    · have hzero : text (Exact.pack negative m q) = ['0'] := by
        rw [text, Exact.ofFloat_pack hregular, Exact.double, if_pos hm]
        rfl
      rw [hzero, decide_eq_true hm]
      rfl
    · have hx : Exact.ofFloat (Exact.pack negative m q) = .finite negative m q := by
        rw [Exact.ofFloat_pack hregular, Exact.double, if_neg hm, if_pos hq]
      rw [text_finite hx hm, decide_eq_false hm]
      exact ofString_denotes hregular (denotes_positive _ m q)
        (shortest_mem (Nat.pos_of_ne_zero hm))

/-- In each layout of a number its digits are a literal with their value. So the text of a finite
number other than zero is a literal of the shortest decimal that converts to its size, after a sign
if it is negative; and every text converts back to the number, but for the sign of a zero. -/
theorem ofString_text :
    (∀ (ds : List Char) (point : ℤ), ds ≠ [] → (∀ c ∈ ds, isDigit c = true) →
      Denotes (Layout.script.place ds point) (natOfDigits ds * 10 ^ (point - ds.length))) ∧
    (∀ x negative m q, Exact.ofFloat x = .finite negative m q → m ≠ 0 →
      ∃ u, text x = (if negative then ['-'] else []) ++ u ∧
        Denotes u (Decimal.shortest .up m q).value ∧
        Exact.ofFloat (Decimal.shortest .up m q).toFloat = .finite false m q) ∧
    ∀ x, ofString (.ofList (text x)) = if x == 0.0 then 0.0 else x := by
  refine ⟨fun ds point hne hds => denotes_place hne hds _ point, fun x negative m q hx hm => ?_,
    ofString_text_eq⟩
  obtain ⟨hregular, hq, -⟩ := Exact.eq_pack_of_ofFloat hx hm
  refine ⟨_, text_finite hx hm, denotes_positive _ m q, ?_⟩
  rw [Decimal.toFloat_of_mem hregular (shortest_mem (Nat.pos_of_ne_zero hm)),
    Exact.ofFloat_pack hregular, Exact.double, if_neg hm, if_pos hq]

theorem ofString_text_quarter : Denotes "0.25".toList (25 * 10 ^ (-2 : ℤ)) ∧
    (∃ u, text (-0.25) = '-' :: u ∧ Denotes u (Decimal.shortest .up (2 ^ 52) (-54)).value) ∧
    ofString (.ofList (text (-0.25))) = -0.25 := by
  have hdigits := ofString_text.1 ['2', '5'] 0 (by decide) (by simp [isDigit])
  have hplace : Layout.script.place ['2', '5'] 0 = "0.25".toList := rfl
  have hvalue : natOfDigits ['2', '5'] = 25 := rfl
  obtain ⟨u, htext, hu, -⟩ := ofString_text.2.1 (-0.25) true (2 ^ 52) (-54) rfl (by decide)
  rw [hplace, hvalue] at hdigits
  exact ⟨by simpa using hdigits, ⟨u, htext, hu⟩, ofString_text.2.2 (-0.25)⟩

end Number

end ScriptMinifier
