import ScriptMinifier.Proofs.Lexemes
import ScriptMinifier.Proofs.Lexing
import ScriptMinifier.Proofs.Literals

namespace ScriptMinifier.Script

open Json.Token (Digits Whole Fraction Exponent isExponent)
open Number (isDigit)

variable {whole fraction exponent tail v cs : List Char} {c : Char} {x : Float}

theorem isExponent_eq (cs : List Char) :
    isExponent cs = (Decimal.exponentOf? cs).isSome := by
  cases cs with
  | nil => rfl
  | cons c cs =>
    rw [isExponent, Decimal.exponentOf?]
    by_cases hc : (c = 'e' || c = 'E') = true
    · rw [if_pos hc, hc, Bool.true_and]
    · rw [if_neg hc, Bool.eq_false_of_not_eq_true hc]
      rfl

/-- What comes after the fraction decides whether it is all a literal. -/
theorem isSome_parse?_append (hw : Digits whole) (hf : Fraction fraction)
    (htail : ∀ c ∈ tail.head?, isDigit c = false ∧ c ≠ '.') :
    (Decimal.parse? (whole ++ (fraction ++ tail))).isSome = isExponent tail := by
  rw [isExponent_eq]
  obtain rfl | ⟨ds, hds, rfl⟩ := hf
  · rw [List.nil_append, Decimal.parse?_whole hw.ne_nil hw.all htail, Option.isSome_map]
  · rw [List.cons_append, Decimal.parse?_point (by simp [hw.ne_nil]) hw.all hds.all fun c hc =>
      (htail c hc).1, Option.isSome_map]

/-- Nothing after the fraction makes a literal hexadecimal or gives it a needless zero. -/
theorem number?_append (hw : Whole whole) (hf : Fraction fraction)
    (htail : ∀ c ∈ tail.head?, isDigit c = false ∧ c ≠ 'x' ∧ c ≠ 'X') :
    number? (whole ++ (fraction ++ tail)) =
      (Decimal.parse? (whole ++ (fraction ++ tail))).map Decimal.toFloat := by
  have hsecond (c : Char) (cs : List Char) (h : whole ++ (fraction ++ tail) = '0' :: c :: cs) :
      isDigit c = false ∧ c ≠ 'x' ∧ c ≠ 'X' := by
    obtain ⟨d, ds, rfl⟩ := List.exists_cons_of_ne_nil hw.ne_nil
    obtain ⟨rfl, hrest⟩ := List.cons.inj h
    obtain rfl : ds = [] := by simpa using hw.leading rfl
    obtain rfl | ⟨ds, -, rfl⟩ := hf
    · have htail' : tail = c :: cs := hrest
      exact htail c (by rw [htail']; rfl)
    · obtain rfl : '.' = c := (List.cons.inj hrest).1
      decide
  unfold number?
  split
  · rename_i c cs heq
    obtain ⟨hdigit, hx, hX⟩ := hsecond c cs heq
    rw [heq]
    simp [hdigit, hx, hX]
  · rfl

theorem isSome_number?_append (hw : Whole whole) (hf : Fraction fraction)
    (htail : ∀ c ∈ tail.head?, isDigit c = false ∧ c ≠ '.' ∧ c ≠ 'x' ∧ c ≠ 'X') :
    (number? (whole ++ (fraction ++ tail))).isSome = isExponent tail := by
  rw [number?_append hw hf fun c hc => ⟨(htail c hc).1, (htail c hc).2.2⟩, Option.isSome_map]
  exact isSome_parse?_append hw.toDigits hf fun c hc => ⟨(htail c hc).1, (htail c hc).2.1⟩

theorem isSome_number? (hw : Whole whole) (hf : Fraction fraction) (he : Exponent exponent) :
    (number? (whole ++ (fraction ++ exponent))).isSome = true := by
  rw [isSome_number?_append hw hf fun c hc => ?_, he.isExponent]
  obtain rfl | ⟨sign, ds, -, -, rfl⟩ := he
  · cases hc
  · obtain rfl : 'e' = c := Option.some.inj hc
    decide

/-- A literal ends before a character that is part of no name, unless this is a point. -/
theorem number?_longer (hw : Whole whole) (hf : Fraction fraction) (he : Exponent exponent)
    (hc : Text.isNamePart c = false) (hdot : c ≠ '.') :
    number? (whole ++ (fraction ++ (exponent ++ c :: v))) = none := by
  have hdigit : isDigit c = false := (not_start_of_not_part hc).2
  have hne (d : Char) (hd : Text.isNamePart d = true) : c ≠ d := (ne_of_isNamePart hd hc).symm
  have hexponent : isExponent (exponent ++ c :: v) = false := by
    obtain rfl | ⟨sign, ds, hsign, -, rfl⟩ := he
    · simp [isExponent, hne 'e' (by decide), hne 'E' (by decide)]
    · obtain rfl | rfl := hsign <;> simp [isExponent, Number.exponent?, hdigit]
  rw [← Option.isNone_iff_eq_none, ← Option.not_isSome,
    isSome_number?_append hw hf fun d hd => ?_, hexponent, Bool.not_false]
  obtain rfl | ⟨sign, ds, -, -, rfl⟩ := he
  · obtain rfl : c = d := Option.some.inj hd
    exact ⟨hdigit, hdot, hne 'x' (by decide), hne 'X' (by decide)⟩
  · obtain rfl : 'e' = d := Option.some.inj hd
    decide

theorem element?_of_number? (hname : Text.isName (.ofList cs) = false) (hgap : isGap cs = false)
    (hmark : .ofList cs ∉ marks) (hx : number? cs = some x) : element? cs = some [.number x] := by
  simp [element?, hname, hgap, hmark, hx]

/-- A literal is a number where no name character and no point follows. -/
theorem lexes_literal (hw : Whole whole) (hf : Fraction fraction) (he : Exponent exponent)
    (hx : number? (whole ++ (fraction ++ exponent)) = some x) :
    Lexes (whole ++ (fraction ++ exponent)) [.number x]
      (fun c => Text.isNamePart c = false ∧ c ≠ '.') := by
  obtain ⟨c, cs, rfl⟩ := List.exists_cons_of_ne_nil hw.ne_nil
  have hc : isDigit c = true := hw.all c List.mem_cons_self
  have hpart := isNamePart_of_isDigit hc
  have hname (ds : List Char) : Text.isName (.ofList (c :: ds)) = false := by
    rw [isName_cons, isNameStart_of_isDigit hc, Bool.false_and]
  have hstring (ds : List Char) : string? (c :: ds) = none :=
    string?_eq_none (ne_of_isNamePart hpart rfl) (ne_of_isNamePart hpart rfl)
  have helement : element? (c :: cs ++ (fraction ++ exponent)) = some [.number x] :=
    element?_of_number? (hname _) (isGap_digit hc) (not_mem_marks hpart) hx
  refine lexes_element (by simp) helement (fun d v hd => ?_) fun d v hd => ?_
  · have hnone : number? (c :: cs ++ (fraction ++ exponent) ++ d :: v) = none := by
      rw [List.append_assoc, List.append_assoc]
      exact number?_longer hw hf he hd.1 hd.2
    exact element?_eq_none (hname _) (isGap_digit hc) (not_mem_marks hpart) hnone (hstring _)
  · obtain ⟨hstart, hdigit⟩ := not_start_of_not_part hd.1
    simp [runsOn, hstart, hdigit]

theorem parse?_digits {ds : List Char} (hne : ds ≠ []) (hd : ∀ c ∈ ds, Number.isDigit c = true) :
    Decimal.parse? ds = some ⟨Number.natOfDigits ds, 0⟩ := by
  have hparse : Decimal.parse? (ds ++ []) = _ := Decimal.parse?_whole hne hd nofun
  rwa [List.append_nil] at hparse

/-- Decimal digits are a number where no name character and no point follows. -/
theorem lexes_digits (n : Nat) : Lexes (Nat.toDigits 10 n) [.number (.ofNat n)]
    (fun c => Text.isNamePart c = false ∧ c ≠ '.') := by
  have hwhole := Json.Token.whole_toDigits n
  have hend : ∀ c ∈ ([] : List Char).head?, isDigit c = false ∧ c ≠ 'x' ∧ c ≠ 'X' := nofun
  have hnumber : number? (Nat.toDigits 10 n ++ ([] ++ [])) = some (.ofNat n) := by
    rw [number?_append hwhole (.inl rfl) hend, List.append_nil, List.append_nil,
      parse?_digits hwhole.ne_nil hwhole.all, Number.natOfDigits_toDigits]
    rfl
  simpa using lexes_literal hwhole (.inl rfl) (.inl rfl) hnumber

end ScriptMinifier.Script
