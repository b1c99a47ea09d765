import Mathlib
import ScriptMinifier.Number.Scan
import ScriptMinifier.Proofs.NumberGrammar

namespace ScriptMinifier.Scan

open Number

variable {as cs : List Char} {c : Char} {p : Char → Bool}

@[simp] theorem bytes_nil : bytes [] = [] := rfl

@[simp] theorem bytes_cons (c : Char) (cs : List Char) :
    bytes (c :: cs) = String.utf8EncodeChar c ++ bytes cs := rfl

@[simp] theorem bytes_append (as cs : List Char) : bytes (as ++ cs) = bytes as ++ bytes cs :=
  List.flatMap_append

/-- Only ASCII characters are of the kind. -/
def IsAscii (p : Char → Bool) : Prop := ∀ c, p c = true → c.toNat < 128

theorem utf8EncodeChar_ascii (hc : c.toNat < 128) :
    String.utf8EncodeChar c = [UInt8.ofNat c.toNat] := by
  have hle : c.val.toNat ≤ 127 := by
    change c.toNat ≤ 127
    omega
  simp only [String.utf8EncodeChar, if_pos hle]
  rfl

theorem length_bytes_concat (as : List Char) (hc : c.toNat < 128) :
    (bytes (as ++ [c])).length = (bytes as).length + 1 := by
  simp [utf8EncodeChar_ascii hc]

/-- No other character has a byte that is one of theirs. -/
theorem exists_byte_ge (hc : 128 ≤ c.toNat) :
    ∃ b bs, String.utf8EncodeChar c = b :: bs ∧ 128 ≤ b.toNat := by
  have hgt : ¬ c.val.toNat ≤ 127 := by
    change ¬ c.toNat ≤ 127
    omega
  simp only [String.utf8EncodeChar, if_neg hgt]
  split_ifs
  · refine ⟨_, _, rfl, ?_⟩
    rw [UInt8.toNat_ofNat']
    omega
  · refine ⟨_, _, rfl, ?_⟩
    rw [UInt8.toNat_ofNat']
    omega
  · refine ⟨_, _, rfl, ?_⟩
    rw [UInt8.toNat_ofNat']
    omega

/-- The first byte of a character tells whether it is of a kind. -/
theorem exists_byte (c : Char) :
    ∃ b bs, String.utf8EncodeChar c = b :: bs ∧ ∀ p, IsAscii p → isByte p b = p c := by
  by_cases hc : c.toNat < 128
  · refine ⟨UInt8.ofNat c.toNat, [], utf8EncodeChar_ascii hc, fun p _ => ?_⟩
    have hbyte : (UInt8.ofNat c.toNat).toNat = c.toNat := by
      rw [UInt8.toNat_ofNat']
      omega
    have hlt : UInt8.ofNat c.toNat < 128 := by
      rw [UInt8.lt_iff_toNat_lt, hbyte]
      exact hc
    rw [isByte, hbyte, Char.ofNat_toNat, decide_eq_true hlt, Bool.true_and]
  · obtain ⟨b, bs, hb, hge⟩ := exists_byte_ge (not_lt.1 hc)
    have hlt : ¬ b < 128 := by
      rw [UInt8.lt_iff_toNat_lt]
      exact not_lt.2 hge
    refine ⟨b, bs, hb, fun p hp => ?_⟩
    have hpc : p c = false := by
      by_contra h
      exact hc (hp c (by simpa using h))
    rw [isByte, decide_eq_false hlt, hpc]
    rfl

@[simp] theorem bytes_eq_nil : bytes cs = [] ↔ cs = [] := by
  cases cs with
  | nil => exact iff_of_true rfl rfl
  | cons c cs =>
    obtain ⟨b, bs, hc, -⟩ := exists_byte c
    simp [hc]

@[simp] theorem before?_bytes (as cs : List Char) :
    before? (as ++ cs) (bytes as).length = some as := by
  induction as with
  | nil => simp [before?]
  | cons c as ih =>
    have hpos := c.utf8Size_pos
    have hlength : (bytes (c :: as)).length = c.utf8Size + (bytes as).length := by simp
    obtain ⟨n, hn⟩ := Nat.exists_eq_add_one.2 (hlength ▸ Nat.add_pos_left hpos _)
    rw [hn, List.cons_append, before?, ← hn, hlength, if_pos (Nat.le_add_right _ _),
      Nat.add_sub_cancel_left, ih]
    rfl

@[simp] theorem from?_bytes (as cs : List Char) :
    from? (as ++ cs) (bytes as).length = some cs := by
  induction as with
  | nil => simp [from?]
  | cons c as ih =>
    have hpos := c.utf8Size_pos
    have hlength : (bytes (c :: as)).length = c.utf8Size + (bytes as).length := by simp
    obtain ⟨n, hn⟩ := Nat.exists_eq_add_one.2 (hlength ▸ Nat.add_pos_left hpos _)
    rw [hn, List.cons_append, from?, ← hn, hlength, if_pos (Nat.le_add_right _ _),
      Nat.add_sub_cancel_left, ih]

/-- What is cut off stands at the front. -/
theorem exists_of_before? {n : ℕ} (h : before? cs n = some as) : ∃ rest, cs = as ++ rest := by
  fun_induction before? cs n generalizing as with
  | case1 =>
    obtain rfl := Option.some_inj.1 h
    exact ⟨_, rfl⟩
  | case2 => cases h
  | case3 c cs n hle ih =>
    obtain ⟨as, has, rfl⟩ := Option.map_eq_some_iff.1 h
    obtain ⟨rest, rfl⟩ := ih has
    exact ⟨rest, rfl⟩
  | case4 => cases h

/-- At the offset of a text its first character is seen. -/
theorem holds?_bytes (hp : IsAscii p) (as cs : List Char) :
    holds? p (bytes (as ++ cs)) (bytes as).length = some (cs.head?.any p) := by
  cases cs with
  | nil => simp [holds?]
  | cons c cs =>
    obtain ⟨b, bs, hc, hb⟩ := exists_byte c
    simp [holds?, hc, hb p hp]

/-- From the offset of a text all its first characters of the kind are skipped. -/
theorem skip?_bytes (hp : IsAscii p) (as cs : List Char) :
    skip? p (bytes (as ++ cs)) (bytes as).length = some (bytes (as ++ cs.takeWhile p)).length := by
  induction cs generalizing as with
  | nil =>
    rw [skip?]
    simp
  | cons c cs ih =>
    obtain ⟨b, bs, hc, hb⟩ := exists_byte c
    have hlt : (bytes as).length < (bytes (as ++ c :: cs)).length := by simp [hc]
    have hread : (bytes (as ++ c :: cs))[(bytes as).length]? = some b := by simp [hc]
    rw [skip?, if_pos hlt, hread]
    change (if isByte p b = true then _ else _) = _
    rw [hb p hp]
    cases hpc : p c with
    | false => simp [hpc]
    | true =>
      rw [if_pos rfl, ← length_bytes_concat as (hp c hpc), List.append_cons, ih,
        List.takeWhile_cons_of_pos hpc, List.append_assoc]
      rfl

theorem isAscii_isDigit : IsAscii isDigit := by
  intro c hc
  have hle : c ≤ '9' := of_decide_eq_true (Bool.and_eq_true_iff.1 hc).2
  rw [Char.le_def, UInt32.le_iff_toNat_le] at hle
  exact hle.trans_lt (by decide)

theorem isAscii_isMark : IsAscii isMark := by
  intro c hc
  simp only [isMark, Bool.or_eq_true, decide_eq_true_eq] at hc
  obtain rfl | rfl := hc <;> decide

theorem isAscii_isSign : IsAscii isSign := by
  intro c hc
  simp only [isSign, Bool.or_eq_true, decide_eq_true_eq] at hc
  obtain rfl | rfl := hc <;> decide

theorem isAscii_eq {a : Char} (ha : a.toNat < 128) : IsAscii (· = a) := by
  intro c hc
  obtain rfl := of_decide_eq_true hc
  exact ha

/-- From the offset of a text digits are skipped. -/
theorem skip?_digits {ds rest : List Char} (as : List Char) (hds : ∀ c ∈ ds, isDigit c = true)
    (hrest : ∀ c ∈ rest.head?, isDigit c = false) :
    skip? isDigit (bytes (as ++ (ds ++ rest))) (bytes as).length =
      some (bytes (as ++ ds)).length := by
  rw [skip?_bytes isAscii_isDigit, takeWhile_digits hds hrest]

theorem digits?_bytes (as cs : List Char) : digits? (bytes (as ++ cs)) (bytes as).length =
    some (!cs.isEmpty && cs.all isDigit) := by
  obtain ⟨ds, rest, rfl, hds, hrest⟩ := Decimal.exists_digits cs
  rw [digits?, skip?_digits as hds hrest]
  refine congrArg some ?_
  have hall : ds.all isDigit = true := List.all_eq_true.2 hds
  cases rest with
  | nil =>
    rw [List.append_nil, Bool.eq_iff_iff]
    simp [hall]
  | cons c rest =>
    have hstop : (bytes (as ++ ds)).length ≠ (bytes (as ++ (ds ++ c :: rest))).length := by
      have hpos := c.utf8Size_pos
      simp only [bytes_append, bytes_cons, List.length_append, String.length_utf8EncodeChar]
      omega
    rw [beq_false_of_ne hstop, Bool.and_false, List.all_append, List.all_cons, hrest c rfl]
    simp

theorem isSome_ite (b : Bool) (e : ℤ) : (if b = true then some e else none).isSome = b := by
  cases b <;> rfl

theorem isSome_exponent?_sign (hc : isSign c = true) (cs : List Char) :
    (Number.exponent? (c :: cs)).isSome = (!cs.isEmpty && cs.all isDigit) := by
  simp only [isSign, Bool.or_eq_true, decide_eq_true_eq] at hc
  obtain rfl | rfl := hc <;> exact isSome_ite _ _

theorem isSome_exponent?_digits (hcs : cs.head?.any isSign = false) :
    (Number.exponent? cs).isSome = (!cs.isEmpty && cs.all isDigit) := by
  unfold Number.exponent?
  split
  · cases hcs
  · cases hcs
  · exact isSome_ite _ _

/-- What is found to be an exponent by offsets is read as one. -/
theorem exponent?_bytes (as cs : List Char) : exponent? (bytes (as ++ cs)) (bytes as).length =
    some (Decimal.exponentOf? cs).isSome := by
  rw [exponent?, holds?_bytes isAscii_isMark]
  change (if _ = true then _ else _) = _
  cases cs with
  | nil => simp [Decimal.exponentOf?]
  | cons c cs =>
    change (if isMark c = true then _ else _) =
      some (if isMark c = true then _ else _ : Option _).isSome
    cases hmark : isMark c with
    | false =>
      have hend : (bytes as).length ≠ (bytes (as ++ c :: cs)).length := by
        have hpos := c.utf8Size_pos
        simp
        omega
      rw [if_neg Bool.false_ne_true, if_neg Bool.false_ne_true, beq_false_of_ne hend]
      rfl
    | true =>
      have hone := length_bytes_concat as (isAscii_isMark c hmark)
      rw [if_pos rfl, if_pos rfl, List.append_cons, ← hone, holds?_bytes isAscii_isSign]
      change (if _ = true then _ else _) = _
      cases hsign : cs.head?.any isSign with
      | false => rw [if_neg Bool.false_ne_true, digits?_bytes, isSome_exponent?_digits hsign]
      | true =>
        obtain ⟨d, ds, rfl, hd⟩ : ∃ d ds, cs = d :: ds ∧ isSign d = true := by
          cases cs with
          | nil => cases hsign
          | cons d ds => exact ⟨d, ds, rfl, hsign⟩
        have htwo : (bytes as).length + 2 = (bytes (as ++ [c] ++ [d])).length := by
          rw [length_bytes_concat _ (isAscii_isSign d hd), hone]
        rw [if_pos rfl, htwo, List.append_cons (as ++ [c]), digits?_bytes, isSome_exponent?_sign hd]

section

variable {whole part rest : List Char}

theorem decimal?_whole (hwhole : ∀ c ∈ whole, isDigit c = true)
    (hrest : ∀ c ∈ rest.head?, isDigit c = false ∧ c ≠ '.') :
    decimal? (bytes (whole ++ rest)) = some (Decimal.parse? (whole ++ rest)).isSome := by
  have hstart : skip? isDigit (bytes (whole ++ rest)) 0 = some (bytes whole).length :=
    skip?_digits [] hwhole fun c hc => (hrest c hc).1
  have hpoint : rest.head?.any (· = '.') = false := by
    cases rest with
    | nil => rfl
    | cons c rest => exact decide_eq_false (hrest c rfl).2
  rw [decimal?, hstart]
  change (do if ← holds? _ _ _ then _ else _) = _
  rw [holds?_bytes (isAscii_eq (by decide)), hpoint]
  change (if _ = 0 then _ else _) = _
  by_cases hempty : whole = []
  · obtain rfl := hempty
    rw [List.nil_append, Decimal.parse?_none (.inl hrest)]
    rfl
  · rw [if_neg (by simpa using hempty), exponent?_bytes, Decimal.parse?_whole hempty hwhole hrest,
      Option.isSome_map]

theorem decimal?_point (hwhole : ∀ c ∈ whole, isDigit c = true)
    (hpart : ∀ c ∈ part, isDigit c = true) (hrest : ∀ c ∈ rest.head?, isDigit c = false) :
    decimal? (bytes (whole ++ '.' :: (part ++ rest))) =
      some (Decimal.parse? (whole ++ '.' :: (part ++ rest))).isSome := by
  have hhead : ∀ c ∈ ('.' :: (part ++ rest)).head?, isDigit c = false := by
    rintro _ ⟨⟩
    rfl
  have hstart : skip? isDigit (bytes (whole ++ '.' :: (part ++ rest))) 0 =
      some (bytes whole).length := skip?_digits [] hwhole hhead
  have hone := length_bytes_concat whole (by decide : '.'.toNat < 128)
  have hstop : skip? isDigit (bytes (whole ++ '.' :: (part ++ rest))) ((bytes whole).length + 1) =
      some (bytes (whole ++ ['.'] ++ part)).length := by
    rw [← hone, List.append_cons, skip?_digits _ hpart hrest]
  have hlength : (bytes (whole ++ ['.'] ++ part)).length - ((bytes whole).length + 1) =
      (bytes part).length := by
    rw [← hone, bytes_append, List.length_append, Nat.add_sub_cancel_left]
  rw [decimal?, hstart]
  change (do if ← holds? _ _ _ then _ else _) = _
  rw [holds?_bytes (isAscii_eq (by decide))]
  change (do let j ← skip? _ _ _; _) = _
  rw [hstop]
  change (if _ + (_ - _) = 0 then _ else _) = _
  rw [hlength]
  by_cases hempty : whole ++ part = []
  · obtain ⟨rfl, rfl⟩ := List.append_eq_nil_iff.1 hempty
    rw [List.nil_append, List.nil_append, Decimal.parse?_none (.inr ⟨rest, rfl, hrest⟩)]
    rfl
  · have hne : (bytes whole).length + (bytes part).length ≠ 0 := by
      simpa [not_and] using hempty
    have hsplit : whole ++ '.' :: (part ++ rest) = whole ++ ['.'] ++ part ++ rest := by simp
    rw [if_neg hne, Decimal.parse?_point hempty hwhole hpart hrest, Option.isSome_map, hsplit,
      exponent?_bytes]

/-- What is found to be a literal by offsets is read as one. -/
theorem decimal?_bytes (cs : List Char) :
    decimal? (bytes cs) = some (Decimal.parse? cs).isSome := by
  obtain ⟨whole, rest, rfl, hwhole, hrest⟩ := Decimal.exists_digits cs
  by_cases hpoint : ∃ cs, rest = '.' :: cs
  · obtain ⟨cs, rfl⟩ := hpoint
    obtain ⟨part, rest, rfl, hpart, hrest'⟩ := Decimal.exists_digits cs
    exact decimal?_point hwhole hpart hrest'
  · refine decimal?_whole hwhole fun c hc => ⟨hrest c hc, ?_⟩
    rintro rfl
    obtain ⟨cs, rfl⟩ := List.head?_eq_some_iff.1 hc
    exact hpoint ⟨cs, rfl⟩

end

theorem before?_radix {mark : Char} {radix : ℕ} (h : (mark, radix) ∈ radixMarks)
    (ds : List Char) :
    before? ('0' :: mark :: ds) 2 = some ['0', mark] ∧ from? ('0' :: mark :: ds) 2 = some ds := by
  have hlength : (bytes ['0', mark]).length = 2 := by
    obtain ⟨rfl, -⟩ | ⟨rfl, -⟩ | ⟨rfl, -⟩ | ⟨rfl, -⟩ | ⟨rfl, -⟩ | ⟨rfl, -⟩ :=
      eq_of_mem_radixMarks h <;> rfl
  rw [← hlength]
  exact ⟨before?_bytes ['0', mark] ds, from?_bytes ['0', mark] ds⟩

/-- The mark of a radix is seen where there is one. -/
theorem radix?_eq_some {radix : ℕ} : radix? cs = some radix ↔
    ∃ mark ds, (mark, radix) ∈ radixMarks ∧ cs = '0' :: mark :: ds := by
  constructor
  · intro h
    unfold radix? at h
    split at h
    case h_7 => cases h
    all_goals
      rename_i hcut
      obtain ⟨ds, rfl⟩ := exists_of_before? hcut
      obtain rfl := Option.some_inj.1 h
      exact ⟨_, ds, by decide, rfl⟩
  · rintro ⟨mark, ds, h, rfl⟩
    rw [radix?, (before?_radix h ds).1]
    obtain ⟨rfl, rfl⟩ | ⟨rfl, rfl⟩ | ⟨rfl, rfl⟩ | ⟨rfl, rfl⟩ | ⟨rfl, rfl⟩ | ⟨rfl, rfl⟩ :=
      eq_of_mem_radixMarks h <;> rfl

/-- Two bytes end inside the second character. -/
example : before? ['0', 'é'] 2 = none ∧ radix? ['0', 'é'] = none := by decide

theorem one_mul_ofUnsigned (cs : List Char) : 1.0 * ofUnsigned cs = ofUnsigned cs := by
  unfold ofUnsigned
  split_ifs
  · rfl
  · split
    · rename_i d _
      obtain ⟨m, q, h, -, hx⟩ := d.rounds_toFloat
      rw [hx, sign_mul_pack ofFloat_one h, Bool.false_xor]
    · rfl

theorem signed?_eq {sign : Float} (hnan : sign * nan = nan) (cs : List Char) :
    signed? sign cs = some (sign * ofUnsigned cs) := by
  unfold signed? ofUnsigned
  split_ifs
  · rfl
  · rw [decimal?_bytes]
    cases Decimal.parse? cs with
    | none => exact congrArg some hnan.symm
    | some d => rfl

/-- Without a mark a sign is looked for. -/
theorem number?_of_radix?_eq_none (hradix : radix? (c :: cs) = none) :
    number? (c :: cs) = some (ofTrimmed (c :: cs)) := by
  obtain ⟨b, bs, hb, hbyte⟩ := exists_byte c
  have hread : (bytes (c :: cs))[0]? = some b := by
    rw [bytes_cons, hb]
    rfl
  rw [number?, if_neg (List.cons_ne_nil c cs), hradix]
  change (do let first ← (bytes (c :: cs))[0]?; _) = _
  rw [hread]
  change (if _ = true then _ else if _ = true then _ else _) = _
  rw [hbyte _ (isAscii_eq (by decide)), hbyte _ (isAscii_eq (by decide))]
  by_cases hplus : c = '+'
  · rw [decide_eq_true hplus, if_pos rfl]
    obtain rfl := hplus
    change (do signed? 1.0 (← from? (['+'] ++ cs) (bytes ['+']).length)) = _
    rw [from?_bytes]
    exact (signed?_eq rfl cs).trans (congrArg some (one_mul_ofUnsigned cs))
  rw [decide_eq_false hplus, if_neg Bool.false_ne_true]
  by_cases hminus : c = '-'
  · rw [decide_eq_true hminus, if_pos rfl]
    obtain rfl := hminus
    change (do signed? (-1.0) (← from? (['-'] ++ cs) (bytes ['-']).length)) = _
    rw [from?_bytes]
    exact signed?_eq rfl cs
  have htrimmed : ofTrimmed (c :: cs) = ofUnsigned (c :: cs) := by
    refine ofTrimmed_eq (List.cons_ne_nil c cs) ?_ fun mark ds hds hmark => ?_
    · rintro _ ⟨⟩
      simpa using ⟨hplus, hminus⟩
    · obtain ⟨radix, h⟩ : ∃ radix, (mark, radix) ∈ radixMarks := by
        simpa [radixMarks, exists_or] using hmark
      rw [radix?_eq_some.2 ⟨mark, ds, h, hds⟩] at hradix
      cases hradix
  rw [decide_eq_false hminus, if_neg Bool.false_ne_true, htrimmed, signed?_eq rfl,
    one_mul_ofUnsigned]

/-- What is read by offsets is the number. -/
theorem number?_eq (cs : List Char) : number? cs = some (ofTrimmed cs) := by
  cases cs with
  | nil => rfl
  | cons c cs =>
    cases hradix : radix? (c :: cs) with
    | none => exact number?_of_radix?_eq_none hradix
    | some radix =>
      obtain ⟨mark, ds, h, hds⟩ := radix?_eq_some.1 hradix
      rw [number?, if_neg (List.cons_ne_nil c cs), hradix, hds, ofTrimmed_radix h]
      change (do some (ofRadix radix (← from? ('0' :: mark :: ds) 2))) = _
      rw [(before?_radix h ds).2]
      rfl

/-- A string converts to a number exactly if it is a numeral without the blanks at its ends, and no
read and no cut fails at any string. -/
theorem ofString_numeral (s : String) :
    (∃ before after, s.toList = before ++ Text.trim s.toList ++ after ∧
      (∀ c ∈ before, Text.isBlank c = true) ∧ ∀ c ∈ after, Text.isBlank c = true) ∧
    (∀ c ∈ (Text.trim s.toList).head?, Text.isBlank c = false) ∧
    (∀ c ∈ (Text.trim s.toList).getLast?, Text.isBlank c = false) ∧
    ((ofString s).isNaN = false ↔ IsNumeral (Text.trim s.toList)) ∧
    number? (Text.trim s.toList) = some (ofString s) :=
  ⟨Text.exists_trim _, fun _ => Text.not_isBlank_head?_trim,
    fun _ => Text.not_isBlank_getLast?_trim, isNaN_ofTrimmed, number?_eq _⟩

end ScriptMinifier.Scan
