import Mathlib.Data.List.DropRight
import ScriptMinifier.Proofs.Decimals

namespace ScriptMinifier

theorem Text.trim_eq_self {cs : List Char} (h : ∀ c ∈ cs, isBlank c = false) : trim cs = cs := by
  have hdrop (cs : List Char) (h : ∀ c ∈ cs, isBlank c = false) : cs.dropWhile isBlank = cs := by
    cases cs with
    | nil => rfl
    | cons c cs => simp [h c List.mem_cons_self]
  have hreverse : ∀ c ∈ cs.reverse, isBlank c = false := fun c hc => h c (List.mem_reverse.1 hc)
  rw [trim, hdrop cs h, hdrop _ hreverse, List.reverse_reverse]

/-- What is trimmed are blanks at both ends. -/
theorem Text.exists_trim (cs : List Char) : ∃ before after, cs = before ++ trim cs ++ after ∧
    (∀ c ∈ before, isBlank c = true) ∧ ∀ c ∈ after, isBlank c = true := by
  refine ⟨cs.takeWhile isBlank, ((cs.dropWhile isBlank).reverse.takeWhile isBlank).reverse, ?_,
    List.all_eq_true.1 List.all_takeWhile, fun c hc => ?_⟩
  · rw [trim, List.append_assoc, ← List.reverse_append, List.takeWhile_append_dropWhile,
      List.reverse_reverse, List.takeWhile_append_dropWhile]
  · exact List.all_eq_true.1 List.all_takeWhile c (List.mem_reverse.1 hc)

/-- No blank is left at the end. -/
theorem Text.not_isBlank_getLast?_trim {cs : List Char} {c : Char}
    (hc : c ∈ (trim cs).getLast?) : isBlank c = false := by
  have hlast := List.head?_dropWhile_not isBlank (cs.dropWhile isBlank).reverse
  rw [trim, List.getLast?_reverse] at hc
  rw [Option.mem_def.1 hc] at hlast
  simpa using hlast

/-- No blank is left at the beginning. -/
theorem Text.not_isBlank_head?_trim {cs : List Char} {c : Char}
    (hc : c ∈ (trim cs).head?) : isBlank c = false := by
  obtain ⟨after, hafter⟩ : trim cs <+: cs.dropWhile isBlank :=
    List.rdropWhile_prefix _ _
  obtain ⟨rest, hrest⟩ := List.head?_eq_some_iff.1 hc
  have hhead := List.head?_dropWhile_not isBlank cs
  rw [← hafter, hrest, List.cons_append, List.head?_cons] at hhead
  simpa using hhead

namespace Decimal

open Number

variable {whole part rest cs : List Char} {c : Char}

theorem eq_of_mem_signs {sign : List Char} (h : sign ∈ [[], ['+'], ['-']]) :
    sign = [] ∨ sign = ['+'] ∨ sign = ['-'] := by
  simpa using h

/-- An exponent with its mark, or nothing. -/
inductive IsExponent : List Char → Prop
  | nil : IsExponent []
  | mark {mark : Char} {sign ds : List Char} (hmark : mark ∈ ['e', 'E'])
      (hsign : sign ∈ [[], ['+'], ['-']]) (hne : ds ≠ []) (hds : ∀ c ∈ ds, isDigit c = true) :
      IsExponent (mark :: (sign ++ ds))

/-- A decimal literal without a sign. -/
inductive IsLiteral : List Char → Prop
  | whole {whole rest : List Char} (hne : whole ≠ []) (hwhole : ∀ c ∈ whole, isDigit c = true)
      (hrest : IsExponent rest) : IsLiteral (whole ++ rest)
  | point {whole part rest : List Char} (hne : whole ++ part ≠ [])
      (hwhole : ∀ c ∈ whole, isDigit c = true) (hpart : ∀ c ∈ part, isDigit c = true)
      (hrest : IsExponent rest) : IsLiteral (whole ++ '.' :: (part ++ rest))

/-- What is read after a mantissa. -/
def exponentOf? : List Char → Option Int
  | [] => some 0
  | c :: cs => if c = 'e' || c = 'E' then exponent? cs else none

theorem exponent?_digits (hne : cs ≠ []) (hcs : ∀ c ∈ cs, isDigit c = true) :
    exponent? cs = some (natOfDigits cs : Int) := by
  have hall : (!cs.isEmpty && cs.all isDigit) = true := by
    simpa [hne] using hcs
  unfold exponent?
  split
  · have h := hcs '-' List.mem_cons_self
    contradiction
  · have h := hcs '+' List.mem_cons_self
    contradiction
  · rw [if_pos hall]

theorem exponent?_minus (hne : cs ≠ []) (hcs : ∀ c ∈ cs, isDigit c = true) :
    exponent? ('-' :: cs) = some (-natOfDigits cs : Int) := by
  have hall : (!cs.isEmpty && cs.all isDigit) = true := by
    simpa [hne] using hcs
  exact if_pos hall

theorem exponent?_plus (hne : cs ≠ []) (hcs : ∀ c ∈ cs, isDigit c = true) :
    exponent? ('+' :: cs) = some (natOfDigits cs : Int) := by
  have hall : (!cs.isEmpty && cs.all isDigit) = true := by
    simpa [hne] using hcs
  exact if_pos hall

/-- Signed digits are what is read as an exponent. -/
theorem isSome_exponent? : (exponent? cs).isSome = true ↔
    ∃ sign ∈ [[], ['+'], ['-']], ∃ ds ≠ [], (∀ c ∈ ds, isDigit c = true) ∧ cs = sign ++ ds := by
  have hdigits (ds : List Char) (h : (!ds.isEmpty && ds.all isDigit) = true) :
      ds ≠ [] ∧ ∀ c ∈ ds, isDigit c = true := by
    simpa using h
  constructor
  · intro h
    unfold exponent? at h
    split at h <;> split_ifs at h with hall
    · exact ⟨['-'], by simp, _, (hdigits _ hall).1, (hdigits _ hall).2, rfl⟩
    · cases h
    · exact ⟨['+'], by simp, _, (hdigits _ hall).1, (hdigits _ hall).2, rfl⟩
    · cases h
    · exact ⟨[], by simp, _, (hdigits _ hall).1, (hdigits _ hall).2, rfl⟩
    · cases h
  · rintro ⟨sign, hsign, ds, hne, hds, rfl⟩
    obtain rfl | rfl | rfl := eq_of_mem_signs hsign
    · rw [List.nil_append, exponent?_digits hne hds]
      rfl
    · rw [List.singleton_append, exponent?_plus hne hds]
      rfl
    · rw [List.singleton_append, exponent?_minus hne hds]
      rfl

theorem isSome_exponentOf? : (exponentOf? cs).isSome = true ↔ IsExponent cs := by
  constructor
  · intro h
    cases cs with
    | nil => exact .nil
    | cons c cs =>
      rw [exponentOf?] at h
      split_ifs at h with hmark
      · obtain ⟨sign, hsign, ds, hne, hds, rfl⟩ := isSome_exponent?.1 h
        exact .mark (by simpa using hmark) hsign hne hds
      · cases h
  · rintro (_ | ⟨hmark, hsign, hne, hds⟩)
    · rfl
    · rw [exponentOf?, if_pos (by simpa using hmark)]
      exact isSome_exponent?.2 ⟨_, hsign, _, hne, hds, rfl⟩

/-- An exponent begins with its mark. -/
theorem IsExponent.head (h : IsExponent cs) : ∀ c ∈ cs.head?, isDigit c = false ∧ c ≠ '.' := by
  obtain _ | ⟨hmark, -, -, -⟩ := h
  · rintro _ ⟨⟩
  · rintro _ ⟨⟩
    simp only [List.mem_cons, List.not_mem_nil, or_false] at hmark
    obtain rfl | rfl := hmark <;> decide

/-- A mantissa without a point. -/
theorem parse?_whole (hne : whole ≠ []) (hwhole : ∀ c ∈ whole, isDigit c = true)
    (hrest : ∀ c ∈ rest.head?, isDigit c = false ∧ c ≠ '.') :
    parse? (whole ++ rest) = (exponentOf? rest).map fun e => ⟨natOfDigits whole, e⟩ := by
  have hhead : ∀ c ∈ rest.head?, isDigit c = false := fun c hc => (hrest c hc).1
  have hfraction : fraction rest = ([], rest) := by
    unfold fraction
    split
    · exact absurd rfl (hrest '.' rfl).2
    · rfl
  have hempty : whole.isEmpty = false := by simpa using hne
  rw [parse?, takeWhile_digits hwhole hhead, dropWhile_digits hwhole hhead, hfraction]
  simp only [hempty, Bool.false_and, Bool.false_eq_true, if_false, List.append_nil, List.length_nil,
    Int.natCast_zero, Int.sub_zero]
  cases rest with
  | nil => rfl
  | cons c cs =>
    dsimp only [exponentOf?]
    split_ifs <;> rfl

/-- A mantissa with a point. -/
theorem parse?_point (hne : whole ++ part ≠ []) (hwhole : ∀ c ∈ whole, isDigit c = true)
    (hpart : ∀ c ∈ part, isDigit c = true) (hrest : ∀ c ∈ rest.head?, isDigit c = false) :
    parse? (whole ++ '.' :: (part ++ rest)) =
      (exponentOf? rest).map fun e => ⟨natOfDigits (whole ++ part), e - part.length⟩ := by
  have hhead : ∀ c ∈ ('.' :: (part ++ rest)).head?, isDigit c = false := by
    rintro _ ⟨⟩
    rfl
  have hfraction : fraction ('.' :: (part ++ rest)) = (part, rest) := by
    rw [fraction, takeWhile_digits hpart hrest, dropWhile_digits hpart hrest]
  have hempty : (whole.isEmpty && part.isEmpty) = false := by
    rw [← Bool.not_eq_true, Bool.and_eq_true, List.isEmpty_iff, List.isEmpty_iff]
    exact fun h => hne (by rw [h.1, h.2]; rfl)
  rw [parse?, takeWhile_digits hwhole hhead, dropWhile_digits hwhole hhead, hfraction]
  simp only [hempty, Bool.false_eq_true, if_false]
  cases rest with
  | nil => rfl
  | cons c cs =>
    dsimp only [exponentOf?]
    split_ifs <;> rfl

/-- Without a digit there is no mantissa. -/
theorem parse?_none (h : (∀ c ∈ cs.head?, isDigit c = false ∧ c ≠ '.') ∨
    ∃ rest, cs = '.' :: rest ∧ ∀ c ∈ rest.head?, isDigit c = false) : parse? cs = none := by
  have hempty (ds : List Char) (hds : ∀ c ∈ ds.head?, isDigit c = false) :
      ds.takeWhile isDigit = [] ∧ ds.dropWhile isDigit = ds := by
    have htake : ([] ++ ds).takeWhile isDigit = [] := takeWhile_digits nofun hds
    have hdrop : ([] ++ ds).dropWhile isDigit = ds := dropWhile_digits nofun hds
    exact ⟨htake, hdrop⟩
  obtain h | ⟨rest, rfl, hrest⟩ := h
  · have hfraction : (fraction cs).1 = [] := by
      unfold fraction
      split
      · exact absurd rfl (h '.' rfl).2
      · rfl
    obtain ⟨htake, hdrop⟩ := hempty cs fun c hc => (h c hc).1
    simp [parse?, htake, hdrop, hfraction]
  · have hpoint : ∀ c ∈ ('.' :: rest).head?, isDigit c = false := by
      rintro _ ⟨⟩
      rfl
    obtain ⟨htake, hdrop⟩ := hempty _ hpoint
    simp [parse?, htake, hdrop, fraction, (hempty rest hrest).1]

/-- Every text is digits and something else. -/
theorem exists_digits (cs : List Char) : ∃ ds rest, cs = ds ++ rest ∧
    (∀ c ∈ ds, isDigit c = true) ∧ ∀ c ∈ rest.head?, isDigit c = false := by
  refine ⟨cs.takeWhile isDigit, cs.dropWhile isDigit, List.takeWhile_append_dropWhile.symm,
    List.all_eq_true.1 List.all_takeWhile, fun c hc => ?_⟩
  have hhead := List.head?_dropWhile_not isDigit cs
  rw [Option.mem_def.1 hc] at hhead
  simpa using hhead

/-- What is read as a decimal is exactly a literal. -/
theorem isSome_parse? : (parse? cs).isSome = true ↔ IsLiteral cs := by
  constructor
  · intro h
    obtain ⟨whole, rest, rfl, hwhole, hrest⟩ := exists_digits cs
    by_cases hpoint : ∃ cs, rest = '.' :: cs
    · obtain ⟨cs, rfl⟩ := hpoint
      obtain ⟨part, rest, rfl, hpart, hrest'⟩ := exists_digits cs
      have hne : whole ++ part ≠ [] := by
        intro hempty
        obtain ⟨rfl, rfl⟩ := List.append_eq_nil_iff.1 hempty
        rw [List.nil_append, List.nil_append, parse?_none (.inr ⟨rest, rfl, hrest'⟩)] at h
        cases h
      rw [parse?_point hne hwhole hpart hrest', Option.isSome_map] at h
      exact .point hne hwhole hpart (isSome_exponentOf?.1 h)
    · have hhead : ∀ c ∈ rest.head?, isDigit c = false ∧ c ≠ '.' := by
        refine fun c hc => ⟨hrest c hc, ?_⟩
        rintro rfl
        obtain ⟨cs, rfl⟩ := List.head?_eq_some_iff.1 hc
        exact hpoint ⟨cs, rfl⟩
      have hne : whole ≠ [] := by
        rintro rfl
        rw [List.nil_append, parse?_none (.inl hhead)] at h
        cases h
      rw [parse?_whole hne hwhole hhead, Option.isSome_map] at h
      exact .whole hne hwhole (isSome_exponentOf?.1 h)
  · rintro (⟨hne, hwhole, hrest⟩ | ⟨hne, hwhole, hpart, hrest⟩)
    · rw [parse?_whole hne hwhole hrest.head, Option.isSome_map]
      exact isSome_exponentOf?.2 hrest
    · rw [parse?_point hne hwhole hpart fun c hc => (hrest.head c hc).1, Option.isSome_map]
      exact isSome_exponentOf?.2 hrest

theorem IsExponent.mem (h : IsExponent cs) (hc : c ∈ cs) :
    isDigit c = true ∨ c ∈ ['e', 'E', '+', '-'] := by
  obtain _ | ⟨hmark, hsign, -, hds⟩ := h
  · cases hc
  · simp only [List.mem_cons, List.not_mem_nil, or_false] at hmark ⊢
    rcases List.mem_cons.1 hc with rfl | hc
    · tauto
    · rcases List.mem_append.1 hc with hc | hc
      · right
        obtain rfl | rfl | rfl := eq_of_mem_signs hsign <;> simp at hc <;> tauto
      · exact .inl (hds c hc)

theorem IsLiteral.mem (h : IsLiteral cs) (hc : c ∈ cs) :
    isDigit c = true ∨ c ∈ ['.', 'e', 'E', '+', '-'] := by
  have hexponent {rest : List Char} (hrest : IsExponent rest) (hc : c ∈ rest) :
      isDigit c = true ∨ c ∈ ['.', 'e', 'E', '+', '-'] :=
    (hrest.mem hc).imp_right (List.mem_cons_of_mem '.')
  obtain ⟨-, hwhole, hrest⟩ | ⟨-, hwhole, hpart, hrest⟩ := h
  · exact (List.mem_append.1 hc).elim (fun hc => .inl (hwhole c hc)) (hexponent hrest)
  · rcases List.mem_append.1 hc with hc | hc
    · exact .inl (hwhole c hc)
    · rcases List.mem_cons.1 hc with rfl | hc
      · exact .inr List.mem_cons_self
      · exact (List.mem_append.1 hc).elim (fun hc => .inl (hpart c hc)) (hexponent hrest)

/-- A literal begins with a digit or a point. -/
theorem IsLiteral.head (h : IsLiteral cs) :
    ∃ c rest, cs = c :: rest ∧ (isDigit c = true ∨ c = '.') := by
  obtain @⟨whole, rest, hne, hwhole, -⟩ | @⟨whole, part, rest, -, hwhole, -, -⟩ := h
  · obtain ⟨c, ds, rfl⟩ := List.exists_cons_of_ne_nil hne
    exact ⟨c, _, rfl, .inl (hwhole c List.mem_cons_self)⟩
  · cases whole with
    | nil => exact ⟨'.', _, rfl, .inr rfl⟩
    | cons c ds => exact ⟨c, _, rfl, .inl (hwhole c List.mem_cons_self)⟩

theorem not_isBlank_of_isDigit (h : isDigit c = true) : Text.isBlank c = false := by
  have hrange : 48 ≤ c.toNat ∧ c.toNat ≤ 57 := by
    simpa [isDigit, Char.le_def, UInt32.le_iff_toNat_le] using h
  simp [Text.isBlank, Text.isWhiteSpace]
  omega

theorem IsLiteral.not_isBlank (h : IsLiteral cs) (hc : c ∈ cs) : Text.isBlank c = false := by
  rcases h.mem hc with hc | hc
  · exact not_isBlank_of_isDigit hc
  · simp only [List.mem_cons, List.not_mem_nil, or_false] at hc
    obtain rfl | rfl | rfl | rfl | rfl := hc <;> decide

end Decimal

end ScriptMinifier
