import ScriptMinifier.Minify
import ScriptMinifier.Proofs.CharacterClasses
import ScriptMinifier.Proofs.Passages
import ScriptMinifier.Tree.Build

namespace ScriptMinifier

namespace Script

/-- Takes the code points from `low` to `high` out of sorted ranges: what lies before them, and what
is left beyond them. -/
def cut (low high : Nat) : List (Nat × Nat) → List (Nat × Nat) × List (Nat × Nat)
  | [] => ([], [])
  | (a, b) :: ranges =>
    if b < low then ((a, b) :: (cut low high ranges).1, (cut low high ranges).2)
    else if high < a then ([], (a, b) :: ranges)
    else
      let before := if a < low then [(a, low - 1)] else []
      if high < b then (before, (high + 1, b) :: ranges)
      else (before ++ (cut low high ranges).1, (cut low high ranges).2)

/-- Sorted ranges without those of a second table. -/
def without : List (Nat × Nat) → List (Nat × Nat) → List (Nat × Nat)
  | ranges, [] => ranges
  | ranges, (low, high) :: others =>
    (cut low high ranges).1 ++ without (cut low high ranges).2 others

variable {ranges others : List (Nat × Nat)} {n : Nat}

theorem isWithin_cons {a b : Nat} :
    isWithin ((a, b) :: ranges) n = true ↔ (a ≤ n ∧ n ≤ b) ∨ isWithin ranges n = true := by
  simp [isWithin]

theorem isWithin_append :
    isWithin (ranges ++ others) n = true ↔ isWithin ranges n = true ∨ isWithin others n = true := by
  simp [isWithin]

theorem isWithin_below {a low : Nat} (ha : a ≤ n) (hlow : n < low) :
    isWithin (if a < low then [(a, low - 1)] else []) n = true := by
  rw [if_pos (by omega), isWithin_cons]
  omega

/-- A cut loses what it cuts out only. -/
theorem isWithin_cut (low high : Nat) (h : isWithin ranges n = true) :
    isWithin (cut low high ranges).1 n = true ∨ (low ≤ n ∧ n ≤ high) ∨
      isWithin (cut low high ranges).2 n = true := by
  fun_induction cut low high ranges with
  | case1 => cases h
  | case2 a b ranges hb ih =>
    rw [isWithin_cons] at h ⊢
    tauto
  | case3 a b ranges hb ha => exact .inr (.inr h)
  | case4 a b ranges hb ha before hhigh =>
    rw [isWithin_cons] at h ⊢
    rcases h with h | h
    · by_cases hlow : n < low
      · exact .inl (isWithin_below h.1 hlow)
      · omega
    · exact .inr (.inr (.inr h))
  | case5 a b ranges hb ha before hhigh ih =>
    rw [isWithin_cons] at h
    rw [isWithin_append]
    rcases h with h | h
    · by_cases hlow : n < low
      · exact .inl (.inl (isWithin_below h.1 hlow))
      · omega
    · have := ih h
      tauto

theorem isWithin_without (h : isWithin ranges n = true) :
    isWithin (without ranges others) n = true ∨ isWithin others n = true := by
  induction others generalizing ranges with
  | nil => exact .inl h
  | cons r others ih =>
    obtain ⟨low, high⟩ := r
    rw [without, isWithin_append, isWithin_cons]
    rcases isWithin_cut low high h with h | h | h
    · exact .inl (.inl h)
    · exact .inr (.inl h)
    · have := ih h
      tauto

theorem isWithin_of_inRanges (h : Text.inRanges n ranges = true) : isWithin ranges n = true := by
  fun_induction Text.inRanges n ranges with
  | case1 => cases h
  | case2 low high ranges ih =>
    simp only [Bool.and_eq_true, Bool.or_eq_true, decide_eq_true_eq] at h
    rw [isWithin_cons]
    tauto

/-- Tables that together leave nothing of some ranges cover them. -/
theorem exists_isWithin {tables : List (List (Nat × Nat))} (h : isWithin ranges n = true)
    (hcover : tables.foldl without ranges = []) : ∃ table ∈ tables, isWithin table n = true := by
  induction tables generalizing ranges with
  | nil =>
    obtain rfl : ranges = [] := hcover
    cases h
  | cons table tables ih =>
    rcases isWithin_without h with hrest | htable
    · obtain ⟨t, ht, hn⟩ := ih hrest hcover
      exact ⟨t, .tail _ ht, hn⟩
    · exact ⟨table, .head _, htable⟩

variable {c : Char}

/-- Alphabetic are the letters and some of the marks and symbols. -/
theorem characterClass_of_isLetter (h : Text.isLetter c = true) :
    characterClass c ∈ [.letter, .mark, .enclosedLetter] := by
  have hcover : [letterRanges, markRanges, enclosedLetterRanges].foldl without
      Text.alphabeticRanges = [] := by
    decide +kernel
  have hc : isWithin letterRanges c.toNat = true ∨ isWithin markRanges c.toNat = true ∨
      isWithin enclosedLetterRanges c.toNat = true := by
    simpa using exists_isWithin (isWithin_of_inRanges h) hcover
  grind [characterClass]

theorem characterClass_of_isNumeric (h : Text.isNumeric c = true) :
    characterClass c ≠ .other := by
  have hcover : [letterRanges, digitRanges, otherNumberRanges].foldl without
      Text.numericRanges = [] := by
    decide +kernel
  have hc : isWithin letterRanges c.toNat = true ∨ isWithin digitRanges c.toNat = true ∨
      isWithin otherNumberRanges c.toNat = true := by
    simpa using exists_isWithin (isWithin_of_inRanges h) hcover
  grind [characterClass]

theorem characterClass_dollar : characterClass '$' = .other := by decide +kernel

theorem characterClass_lowLine : characterClass '_' = .connector := by decide +kernel

theorem characterClass_joiner : characterClass '\u200d' = .other := by decide +kernel

theorem characterClass_nonJoiner : characterClass '\u200c' = .other := by decide +kernel

def isIdentifierStart (c : Char) : Bool := characterClass c = .letter || c = '$' || c = '_'

/-- What may follow the first character of a name; the last two are the characters that join and
separate those beside them. -/
def isIdentifierPart (c : Char) : Bool :=
  isIdentifierStart c || characterClass c ∈ [.mark, .digit, .connector] || c = '\u200d' ||
    c = '\u200c'

/-- The names of the language, reserved words included. -/
def isIdentifierName (s : String) : Bool :=
  match s.toList with
  | [] => false
  | c :: cs => isIdentifierStart c && cs.all isIdentifierPart

/-- Texts with a character that is taken for a letter or a number, but stands in no name there. -/
inductive Stray : List Char → Prop
  /-- The first character is a combining mark or an enclosed letter. -/
  | start {c cs} : characterClass c ∈ [.mark, .enclosedLetter] → Stray (c :: cs)
  /-- A later one is an enclosed letter or a number that is no digit. -/
  | part {c d cs} : d ∈ cs → characterClass d ∈ [.enclosedLetter, .otherNumber] → Stray (c :: cs)

theorem isIdentifierStart_iff (h : Text.isNameStart c = true) :
    isIdentifierStart c = true ↔ characterClass c ∉ [.mark, .enclosedLetter] := by
  have hclass : characterClass c ∈ [.letter, .mark, .enclosedLetter] ∨ c = '_' ∨ c = '$' := by
    simp only [Text.isNameStart, Bool.or_eq_true, decide_eq_true_eq, or_assoc] at h
    exact h.imp_left characterClass_of_isLetter
  grind [isIdentifierStart, characterClass_dollar, characterClass_lowLine]

theorem isIdentifierPart_iff (h : Text.isNamePart c = true) :
    isIdentifierPart c = true ↔ characterClass c ∉ [.enclosedLetter, .otherNumber] := by
  have hclass : characterClass c ≠ .other ∨ c = '_' ∨ c = '$' := by
    simp only [Text.isNamePart, Text.isLetterOrNumber, Bool.or_eq_true, decide_eq_true_eq,
      or_assoc] at h
    rcases h with h | h | h
    · exact .inl fun hother => absurd (hother ▸ characterClass_of_isLetter h) (by decide)
    · exact .inl (characterClass_of_isNumeric h)
    · exact .inr h
  -- Every class but these two and `other` is one that a name may hold.
  have hcases : characterClass c = .other ∨ characterClass c ∈ [.enclosedLetter, .otherNumber] ∨
      characterClass c ∈ [.letter, .mark, .digit, .connector] := by
    cases characterClass c <;> decide
  grind [isIdentifierPart, isIdentifierStart, characterClass_dollar, characterClass_lowLine,
    characterClass_joiner, characterClass_nonJoiner]

theorem length_le_escape (cs : List Char) : cs.length ≤ (Text.escape cs).length := by
  induction cs with
  | nil => rfl
  | cons c cs ih =>
    have hc : 1 ≤ (Text.escapeChar c).length := by
      unfold Text.escapeChar
      split_ifs <;> simp
    simp only [Text.escape, List.flatMap_cons, List.length_append, List.length_cons] at ih ⊢
    omega

theorem quote_ne (s : String) : Text.quote s ≠ s.toList := by
  intro h
  have hlength := congrArg List.length h
  have hescape := length_le_escape s.toList
  simp only [Text.quote, List.length_cons, List.length_append] at hlength
  omega

variable {s : String}

/-- The names that are printed as they are: identifiers and names by the own test of each, what an
access by index becomes an access by name of, and keys without quotes. -/
inductive WrittenBare (s : String) : Prop
  | identifier : Text.isIdentifier s = true → WrittenBare s
  | name : Text.isName s = true → WrittenBare s
  | access (o : Options) (subject : Node) (place span : Span) :
      Rule.index o subject ⟨.string s, place⟩ span = ⟨.member subject s, span⟩ → WrittenBare s
  | key : propertyKey s = s.toList → WrittenBare s

theorem WrittenBare.isName (h : WrittenBare s) : Text.isName s = true := by
  cases h with
  | identifier h => exact Text.isName_of_isIdentifier h
  | name h => exact h
  | access o subject place span h =>
    by_cases hs : (o.on .properties && Text.isIdentifier s) = true
    · exact Text.isName_of_isIdentifier (by simp_all)
    · rw [Rule.index, if_neg hs] at h
      cases h
  | key h =>
    by_contra hs
    rw [propertyKey, if_neg hs] at h
    exact quote_ne s h

/-- What is written bare is a name of the language unless it holds a stray letter or number. -/
theorem isIdentifierName_iff (h : WrittenBare s) :
    isIdentifierName s = true ↔ ¬ Stray s.toList := by
  obtain ⟨c, cs, hs, hc, hcs⟩ := exists_cons_of_isName h.isName
  have hname : isIdentifierName s = (isIdentifierStart c && cs.all isIdentifierPart) := by
    rw [isIdentifierName, hs]
  rw [hname, hs, Bool.and_eq_true, isIdentifierStart_iff hc, List.all_eq_true]
  have hpart := fun d hd => isIdentifierPart_iff (List.all_eq_true.1 hcs d hd)
  constructor
  · rintro ⟨hstart, hall⟩ (hstray | ⟨hd, hstray⟩)
    · exact hstart hstray
    · exact (hpart _ hd).1 (hall _ hd) hstray
  · intro hstray
    exact ⟨fun hstart => hstray (.start hstart),
      fun d hd => (hpart d hd).2 fun hclass => hstray (.part hd hclass)⟩

theorem isIdentifierName_umlaut : WrittenBare "größe" ∧ ¬ Stray "größe".toList ∧
    isIdentifierName "größe" = true := by
  have hbare : WrittenBare "größe" := .identifier (by decide +kernel)
  have hname : isIdentifierName "größe" = true := by decide +kernel
  exact ⟨hbare, (isIdentifierName_iff hbare).1 hname, hname⟩

set_option maxRecDepth 3000 in
/-- `a["x²"];` becomes `a.x²;`, where a superscript ends what follows the dot. -/
theorem minify_index_superscript :
    let a := Build.identifier "a"
    let n := Build.program [Build.statement (Build.index a (Build.string "x²"))]
    let m := Build.program [Build.statement (Build.member a "x²")]
    (minify .full n).result = .ok m ∧ Text.isIdentifier "x²" = true ∧
      isIdentifierName "x²" = false := by
  exact ⟨by cbv, by decide +kernel, by decide +kernel⟩

end Script

end ScriptMinifier
