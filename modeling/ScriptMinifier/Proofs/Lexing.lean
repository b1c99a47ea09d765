import ScriptMinifier.Proofs.Decimals
import ScriptMinifier.Proofs.JsonText
import ScriptMinifier.Proofs.Tokens
import ScriptMinifier.Text.Quoted

namespace ScriptMinifier.Script

variable {c : Char} {cs v : List Char} {m name : String}

theorem isName_cons :
    Text.isName (.ofList (c :: cs)) = (Text.isNameStart c && cs.all Text.isNamePart) := by
  simp [Text.isName]

theorem isGap_cons (h : c ≠ '/') (hcs : cs ≠ []) : isGap (c :: cs) = false := by
  unfold isGap
  split <;> simp_all

theorem number?_eq_none (hc : Number.isDigit c = false)
    (hdot : c = '.' → ∀ d ∈ cs.head?, Number.isDigit d = false) : number? (c :: cs) = none := by
  have hzero : c ≠ '0' := by
    rintro rfl
    cases hc
  have hpart : (Number.fraction (c :: cs)).1 = [] := by
    unfold Number.fraction
    split
    · rename_i ds hds
      obtain ⟨rfl, rfl⟩ := List.cons.inj hds
      cases cs with
      | nil => rfl
      | cons d cs => simp [hdot rfl d rfl]
    · rfl
  have hdecimal : Decimal.parse? (c :: cs) = none := by
    simp [Decimal.parse?, hc, hpart]
  unfold number?
  split
  · simp_all
  · rw [hdecimal]
    rfl

theorem string?_eq_none (hc : c ≠ '"') (hc' : c ≠ '\'') : string? (c :: cs) = none := by
  simp [string?, hc, hc']

theorem element?_eq_none (hname : Text.isName (.ofList cs) = false) (hgap : isGap cs = false)
    (hmark : .ofList cs ∉ marks) (hnumber : number? cs = none) (hstring : string? cs = none) :
    element? cs = none := by
  simp [element?, hname, hgap, hmark, hnumber, hstring]

/-- Punctuators are told from names and literals by their characters. -/
theorem mark_chars (hm : m ∈ marks) (hc : c ∈ m.toList) :
    Text.isNamePart c = false ∧ c ≠ '"' ∧ c ≠ '\'' ∧ c ≠ ' ' := by
  have hall : ∀ m ∈ marks, m.toList.all (fun c =>
      !Text.isNamePart c && c ≠ '"' && c ≠ '\'' && c ≠ ' ') = true := by
    decide
  simpa [and_assoc] using List.all_eq_true.1 (hall m hm) c hc

theorem mark_ne_nil (hm : m ∈ marks) : m.toList ≠ [] := by
  have hall : ∀ m ∈ marks, m.toList ≠ [] := by decide
  exact hall m hm

theorem isNamePart_of_isNameStart (h : Text.isNameStart c = true) : Text.isNamePart c = true := by
  simp only [Text.isNameStart, Text.isNamePart, Text.isLetterOrNumber, Bool.or_eq_true] at h ⊢
  obtain (h | h) | h := h
  · exact .inl (.inl (.inl h))
  · exact .inl (.inr h)
  · exact .inr h

theorem isNamePart_of_isDigit (h : Number.isDigit c = true) : Text.isNamePart c = true := by
  have hrange : 48 ≤ c.toNat ∧ c.toNat ≤ 57 := by
    simpa [Number.isDigit, Char.le_def, UInt32.le_iff_toNat_le] using h
  have hnumeric : Text.isNumeric c = (decide (48 ≤ c.toNat) &&
      (decide (c.toNat ≤ 57) || Text.inRanges c.toNat Text.numericRanges.tail)) :=
    rfl
  simp [Text.isNamePart, Text.isLetterOrNumber, hnumeric, hrange]

theorem isDigit_of_isNameStart (h : Text.isNameStart c = true) : Number.isDigit c = false := by
  by_contra hdigit
  have hrange : 48 ≤ c.toNat ∧ c.toNat ≤ 57 := by
    simpa [Number.isDigit, Char.le_def, UInt32.le_iff_toNat_le] using hdigit
  have hletter : Text.isLetter c = false := by
    have hfirst : Text.isLetter c = (decide (65 ≤ c.toNat) &&
        (decide (c.toNat ≤ 90) || Text.inRanges c.toNat Text.alphabeticRanges.tail)) :=
      rfl
    have hlow : ¬ 65 ≤ c.toNat := by omega
    rw [hfirst, decide_eq_false hlow, Bool.false_and]
  have hother : c = '_' ∨ c = '$' := by simpa [Text.isNameStart, hletter] using h
  obtain rfl | rfl := hother
  · cases hdigit rfl
  · cases hdigit rfl

theorem ne_of_isNamePart {d : Char} (hc : Text.isNamePart c = true)
    (hd : Text.isNamePart d = false) : c ≠ d := by
  rintro rfl
  rw [hc] at hd
  cases hd

theorem isNameStart_of_isDigit (h : Number.isDigit c = true) : Text.isNameStart c = false := by
  by_contra hstart
  rw [isDigit_of_isNameStart (by simpa using hstart)] at h
  cases h

theorem isGap_digit (h : Number.isDigit c = true) : isGap (c :: cs) = false := by
  cases cs with
  | nil =>
    have hrange : 48 ≤ c.toNat ∧ c.toNat ≤ 57 := by
      simpa [Number.isDigit, Char.le_def, UInt32.le_iff_toNat_le] using h
    have hblank : Text.isBlank c = false := by
      simp only [Text.isBlank, Text.isWhiteSpace, Bool.or_eq_false_iff, Bool.and_eq_false_iff,
        decide_eq_false_iff_not]
      omega
    rw [isGap, hblank, Bool.false_and]
  | cons d cs => exact isGap_cons (ne_of_isNamePart (isNamePart_of_isDigit h) rfl) (by simp)

theorem not_start_of_not_part (h : Text.isNamePart c = false) :
    Text.isNameStart c = false ∧ Number.isDigit c = false := by
  constructor
  · by_contra hstart
    rw [isNamePart_of_isNameStart (by simpa using hstart)] at h
    cases h
  · by_contra hdigit
    rw [isNamePart_of_isDigit (by simpa using hdigit)] at h
    cases h

/-- What begins with a name character is no punctuator. -/
theorem not_mem_marks (h : Text.isNamePart c = true) : String.ofList (c :: cs) ∉ marks := by
  intro hm
  have hc := mark_chars (c := c) hm (by simp)
  rw [h] at hc
  cases hc.1

theorem exists_cons_of_isName (h : Text.isName name = true) : ∃ c cs, name.toList = c :: cs ∧
    Text.isNameStart c = true ∧ cs.all Text.isNamePart = true := by
  cases hlist : name.toList with
  | nil => simp [Text.isName, hlist] at h
  | cons c cs => exact ⟨c, cs, rfl, by simpa [Text.isName, hlist] using h⟩

theorem lexes_word (h : Text.isName name = true) :
    Lexes name.toList [.word name] (fun c => Text.isNamePart c = false) := by
  have helement : element? name.toList = some [.word name] := by
    simp [element?, h]
  obtain ⟨c, cs, hcs, hstart, -⟩ := exists_cons_of_isName h
  have hpart := isNamePart_of_isNameStart hstart
  have hne (d : Char) (hd : Text.isNamePart d = false) : c ≠ d := ne_of_isNamePart hpart hd
  refine lexes_element (by simp [hcs]) helement (fun d v hd => ?_) fun _ _ _ => rfl
  rw [hcs, List.cons_append]
  refine element?_eq_none ?_ ?_ (not_mem_marks hpart) ?_ ?_
  · rw [isName_cons, List.all_append, List.all_cons, hd]
    simp
  · exact isGap_cons (hne '/' rfl) (by simp)
  · exact number?_eq_none (isDigit_of_isNameStart hstart) fun hdot => absurd hdot (hne '.' rfl)
  · exact string?_eq_none (hne '"' rfl) (hne '\'' rfl)

/-- A character that a punctuator would run into. -/
def fuses (m : String) (c : Char) : Bool :=
  marks.any (fun m' => (m.toList ++ [c]).isPrefixOf m'.toList) || (m = "." && Number.isDigit c) ||
    (m = "/" && (c = '/' || c = '*'))

theorem lexes_mark (hm : m ∈ marks) : Lexes m.toList [.mark m] (fun c => fuses m c = false) := by
  obtain ⟨c, cs, hcs⟩ := List.exists_cons_of_ne_nil (mark_ne_nil hm)
  obtain ⟨hpart, hdouble, hsingle, -⟩ := mark_chars (c := c) hm (by simp [hcs])
  obtain ⟨hstart, hdigit⟩ := not_start_of_not_part hpart
  have hname (ds : List Char) : Text.isName (.ofList (c :: ds)) = false := by
    rw [isName_cons, hstart, Bool.false_and]
  have helement : element? m.toList = some [.mark m] := by
    have hgap : isGap m.toList = false := by
      have hall : ∀ m ∈ marks, isGap m.toList = false := by decide
      exact hall m hm
    have hname' : Text.isName m = false := by
      have hm' := hname cs
      rwa [← hcs, String.ofList_toList] at hm'
    simp [element?, hname', hgap, hm]
  refine lexes_element (by simp [hcs]) helement (fun d v hd => ?_) fun _ _ _ => rfl
  obtain ⟨⟨hmarks, hpoint⟩, hslash⟩ : ((∀ m' ∈ marks, ¬ m.toList ++ [d] <+: m'.toList) ∧
      (m = "." → Number.isDigit d = false)) ∧ (m = "/" → d ≠ '/' ∧ d ≠ '*') := by
    simpa [fuses] using hd
  have hlonger : .ofList (m.toList ++ d :: v) ∉ marks := by
    intro hmem
    refine hmarks _ hmem ⟨v, ?_⟩
    rw [String.toList_ofList, List.append_assoc]
    rfl
  have hgap : isGap (m.toList ++ d :: v) = false := by
    by_cases hc : c = '/'
    · have hfirst : ∀ m ∈ marks, m.toList.head? = some '/' → m = "/" ∨ m = "/=" := by decide
      obtain rfl | rfl := hfirst m hm (by rw [hcs, hc]; rfl)
      · obtain ⟨hline, hblock⟩ := hslash rfl
        change isGap ('/' :: d :: v) = false
        unfold isGap
        split <;> simp_all
      · rfl
    · rw [hcs, List.cons_append]
      exact isGap_cons hc (by simp)
  have hnumber : number? (m.toList ++ d :: v) = none := by
    have hfirst : ∀ m ∈ marks, m.toList.head? = some '.' → m = "." := by decide
    rw [hcs]
    refine number?_eq_none hdigit fun hdot => ?_
    obtain rfl : m = "." := hfirst m hm (by rw [hcs, hdot]; rfl)
    obtain ⟨rfl, rfl⟩ : c = '.' ∧ cs = [] := by simpa [eq_comm] using hcs
    intro d' hd'
    obtain rfl : d = d' := Option.some.inj hd'
    exact hpoint rfl
  rw [hcs] at hlonger hgap hnumber ⊢
  exact element?_eq_none (hname _) hgap hlonger hnumber (string?_eq_none hdouble hsingle)

theorem lexes_blank : Lexes [' '] [] (fun _ => True) := by
  refine lexes_element (by decide) (by decide) (fun d v _ => ?_) fun _ _ _ => rfl
  have hmark : String.ofList (' ' :: d :: v) ∉ marks := by
    intro hm
    obtain ⟨-, -, -, hblank⟩ := mark_chars (c := ' ') hm (by simp)
    exact hblank rfl
  exact element?_eq_none isName_cons (isGap_cons (by decide) (by simp)) hmark
    (number?_eq_none rfl fun hdot => nomatch hdot) (string?_eq_none (by decide) (by decide))

theorem hexValue?_hex (width n : Nat) : hexValue? (Text.hex width n) = some (n % 16 ^ width) := by
  have hvalue : (Text.hex width n).foldl (fun n d => 16 * n + Number.digitValue d) 0 =
      n % 16 ^ width ∧ ∀ d ∈ Text.hex width n, Number.digitValue d < 16 := by
    induction width generalizing n with
    | zero => simp [Text.hex, Nat.mod_one]
    | succ width ih =>
      obtain ⟨hfold, hall⟩ := ih (n / 16)
      have hdigit : n % 16 < 16 := Nat.mod_lt _ (by decide)
      have hlast := Number.digitValue_digitChar hdigit
      constructor
      · rw [Text.hex, List.foldl_append, hfold, List.foldl_cons, List.foldl_nil, hlast,
          Nat.pow_succ', Nat.mod_mul]
        omega
      · intro d hd
        obtain hd | rfl : d ∈ Text.hex width (n / 16) ∨ d = Nat.digitChar (n % 16) := by
          simpa [Text.hex] using hd
        · exact hall d hd
        · omega
  rw [hexValue?, if_pos (by simpa using hvalue.2), hvalue.1]

theorem stringCodes?_escapeChar (c : Char) (rest : List Char) :
    stringCodes? '"' (Text.escapeChar c ++ rest) =
      (stringCodes? '"' rest).map (c.toNat :: ·) := by
  unfold Text.escapeChar
  split_ifs with h₁ h₂ h₃ h₄ h₅ h₆ h₇
  · subst h₁
    rfl
  · subst h₂
    rfl
  · subst h₃
    rfl
  · subst h₄
    rfl
  · subst h₅
    rfl
  · have hc : c.toNat % 16 ^ 4 = c.toNat := by
      refine Nat.mod_eq_of_lt ?_
      simp only [Bool.or_eq_true, decide_eq_true_eq] at h₆
      omega
    have hvalue := hexValue?_hex 4 c.toNat
    rw [hc] at hvalue
    change (hexValue? (Text.hex 4 c.toNat)).bind _ = _
    rw [hvalue]
    rfl
  · have hc : c.toNat % 16 ^ 2 = c.toNat := by
      refine Nat.mod_eq_of_lt ?_
      simp only [Text.isControl, Bool.or_eq_true, Bool.and_eq_true, decide_eq_true_eq] at h₇
      omega
    have hvalue := hexValue?_hex 2 c.toNat
    rw [hc] at hvalue
    change (hexValue? (Text.hex 2 c.toNat)).bind _ = _
    rw [hvalue]
    rfl
  · have hline : isLineEnd c = false := by
      simpa [isLineEnd, h₃, h₄] using h₆
    simp [stringCodes?, h₁, h₂, hline]

/-- The codes of a string are read up to its closing quote, which has to be the end. -/
theorem stringCodes?_escape (cs rest : List Char) :
    stringCodes? '"' (Text.escape cs ++ '"' :: rest) =
      if rest = [] then some (cs.map Char.toNat) else none := by
  induction cs with
  | nil => cases rest <;> rfl
  | cons c cs ih =>
    rw [Text.escape, List.flatMap_cons, List.append_assoc, stringCodes?_escapeChar]
    change (stringCodes? '"' (Text.escape cs ++ '"' :: rest)).map _ = _
    rw [ih]
    split <;> rfl

theorem lexes_quote (s : String) : Lexes (Text.quote s) [.string s] (fun _ => True) := by
  have hname (ds : List Char) : Text.isName (.ofList ('"' :: ds)) = false := isName_cons
  have hgap (v : List Char) : isGap ('"' :: (Text.escape s.toList ++ '"' :: v)) = false :=
    isGap_cons (by decide) (by simp)
  have hmark (ds : List Char) : String.ofList ('"' :: ds) ∉ marks := by
    intro hm
    obtain ⟨-, hdouble, -⟩ := mark_chars (c := '"') hm (by simp)
    exact hdouble rfl
  have hnumber (ds : List Char) : number? ('"' :: ds) = none :=
    number?_eq_none rfl fun hdot => nomatch hdot
  have hstring (v : List Char) : string? ('"' :: (Text.escape s.toList ++ '"' :: v)) =
      if v = [] then some s else none := by
    change (stringCodes? '"' (Text.escape s.toList ++ '"' :: v)).bind
      (fun codes => (Json.Token.decodeText codes).bind fun cs => some (String.ofList cs)) = _
    rw [stringCodes?_escape]
    split
    · simp [Json.Token.decodeText_map]
    · rfl
  have helement : element? (Text.quote s) = some [.string s] := by
    change element? ('"' :: (Text.escape s.toList ++ ['"'])) = _
    rw [element?, hname, hgap, hnumber, hstring, List.contains_eq_mem, decide_eq_false (hmark _)]
    rfl
  refine lexes_element (by simp [Text.quote]) helement (fun d v _ => ?_) fun _ _ _ => rfl
  have hlist : Text.quote s ++ d :: v = '"' :: (Text.escape s.toList ++ '"' :: d :: v) := by
    simp [Text.quote]
  rw [hlist]
  exact element?_eq_none (hname _) (hgap _) (hmark _) (hnumber _) (hstring _)

end ScriptMinifier.Script
