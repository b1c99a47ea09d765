import ScriptMinifier.Printed
import ScriptMinifier.Proofs.Numerals

namespace ScriptMinifier

namespace Script

variable {t u : List Char} {ts us : List Token} {c : Char} {m w : String} {dot : Bool}
  {next : Char → Prop}

/-- The characters that an operand begins with. -/
def isOperandStart (c : Char) : Bool :=
  Text.isNameStart c || Number.isDigit c || ['"', '(', '[', '{', '+', '-', '!', '~'].contains c

/-- The character does not lengthen the name or the number that a text ends in. -/
def Clear (t : List Char) (c : Char) : Prop :=
  ∀ l ∈ t.getLast?, Text.isNamePart l = true → Text.isNamePart c = false

/-- The character may follow a text; a point may if `dot` says so. -/
def Next (t : List Char) (dot : Bool) (c : Char) : Prop := Clear t c ∧ (c = '.' → dot = true)

/-- A text that stands where an operand is asked for. -/
structure Operand (t : List Char) (ts : List Token) (dot : Bool) : Prop where
  start : ∃ c ∈ t.head?, isOperandStart c = true
  lexes : Lexes t ts (Next t dot)

theorem clear_append (hu : u ≠ []) : Clear (t ++ u) c ↔ Clear u c := by
  rw [Clear, Clear, List.getLast?_append_of_ne_nil _ hu]

/-- Only a sign runs into the operand after it. -/
theorem fuses_of_isOperandStart (hm : m ∈ marks) (hc : isOperandStart c = true) (hdot : m ≠ ".")
    (hplus : m = "+" → c ≠ '+') (hminus : m = "-" → c ≠ '-') : fuses m c = false := by
  by_contra hfuses
  have hfuses : fuses m c = true := by simpa using hfuses
  have hslash : ¬ (c = '/' ∨ c = '*') := by
    rintro (rfl | rfl) <;> exact absurd hc (by decide)
  obtain ⟨m', hm', hprefix⟩ : ∃ m' ∈ marks, m.toList ++ [c] <+: m'.toList := by
    simpa [fuses, hdot, hslash] using hfuses
  by_cases hpart : Text.isNamePart c = true
  · have hmem : c ∈ m'.toList := hprefix.subset (by simp)
    exact ne_of_isNamePart hpart (mark_chars hm' hmem).1 rfl
  · have hsign : c ∈ ['"', '(', '[', '{', '+', '-', '!', '~'] := by
      have hstart : Text.isNameStart c = false ∧ Number.isDigit c = false :=
        not_start_of_not_part (by simpa using hpart)
      simpa [isOperandStart, hstart] using hc
    have htail : c ∈ m'.toList.tail := by
      obtain ⟨d, ds, hds⟩ := List.exists_cons_of_ne_nil (mark_ne_nil hm)
      obtain ⟨v, hv⟩ := hprefix
      simp [← hv, hds]
    have hdouble : ∀ m' ∈ marks, m' = "++" ∨ m' = "--" ∨
        m'.toList.tail.all (· ∉ ['"', '(', '[', '{', '+', '-', '!', '~']) = true := by
      decide
    obtain rfl | rfl | hall := hdouble m' hm'
    · obtain rfl : c = '+' := by simpa using htail
      have hfirst : ∀ m ∈ marks, m.toList ++ ['+'] <+: "++".toList → m = "+" := by decide
      exact hplus (hfirst m hm hprefix) rfl
    · obtain rfl : c = '-' := by simpa using htail
      have hfirst : ∀ m ∈ marks, m.toList ++ ['-'] <+: "--".toList → m = "-" := by decide
      exact hminus (hfirst m hm hprefix) rfl
    · exact absurd hsign (by simpa using List.all_eq_true.mp hall c htail)

/-- A punctuator that begins no other goes on in none. -/
theorem not_prefix_of_maximal (h : ∀ m' ∈ marks, m.toList <+: m'.toList → m' = m) (c : Char) :
    ∀ m' ∈ marks, ¬ m.toList ++ [c] <+: m'.toList := by
  intro m' hm' hprefix
  obtain rfl := h m' hm' ((List.prefix_append _ _).trans hprefix)
  have hlength := hprefix.length_le
  rw [List.length_append, List.length_singleton] at hlength
  omega

theorem fuses_point (hc : Text.isNameStart c = true) : fuses "." c = false := by
  have hmaximal : ∀ m' ∈ marks, ".".toList <+: m'.toList → m' = "." := by decide
  simpa [fuses, isDigit_of_isNameStart hc] using not_prefix_of_maximal hmaximal c

/-- All punctuators but the point begin with what no text runs into. -/
theorem head_mark (hm : m ∈ marks) (hdot : m ≠ ".") (hc : c ∈ (m.toList ++ u).head?) :
    Text.isNamePart c = false ∧ c ≠ '.' := by
  have hall : ∀ m ∈ marks, m ≠ "." → '.' ∉ m.toList := by decide
  rw [List.head?_append_of_ne_nil _ (mark_ne_nil hm)] at hc
  have hmem : c ∈ m.toList := List.mem_of_mem_head? hc
  refine ⟨(mark_chars hm hmem).1, ?_⟩
  rintro rfl
  exact hall m hm hdot hmem

namespace Lexes

theorem mark (hu : Lexes u us next) (hne : u ≠ []) (hm : m ∈ marks)
    (hfuses : ∀ c ∈ u.head?, fuses m c = false) : Lexes (m.toList ++ u) (.mark m :: us) next :=
  (lexes_mark hm).append hu hne hfuses

theorem blank (hu : Lexes u us next) (hne : u ≠ []) : Lexes (' ' :: u) us next :=
  lexes_blank.append hu hne fun _ _ => trivial

/-- A text after a word. -/
theorem after_word (hu : Lexes u us next) (hne : u ≠ []) (hw : Text.isName w = true) :
    Lexes (w.toList ++ spaced u) (.word w :: us) next := by
  obtain ⟨c, cs, rfl⟩ := List.exists_cons_of_ne_nil hne
  by_cases hc : (Text.isNamePart c || c = '.') = true
  · rw [spaced, if_pos hc]
    refine (lexes_word hw).append (hu.blank hne) (by simp) fun d hd => ?_
    obtain rfl : ' ' = d := Option.some.inj hd
    rfl
  · rw [spaced, if_neg hc]
    refine (lexes_word hw).append hu hne fun d hd => ?_
    obtain rfl : c = d := Option.some.inj hd
    simp_all

/-- What follows a text has to do with its end only. -/
theorem of_end (h : Lexes (t ++ u) ts (Next u dot)) (hu : u ≠ []) :
    Lexes (t ++ u) ts (Next (t ++ u) dot) :=
  h.mono fun _ hc => ⟨(clear_append hu).1 hc.1, hc.2⟩

end Lexes

namespace Operand

theorem ne_nil (h : Operand t ts dot) : t ≠ [] := by
  obtain ⟨c, hc, -⟩ := h.start
  rintro rfl
  cases hc

theorem start_append (h : Operand t ts dot) (u : List Char) :
    ∃ c ∈ (t ++ u).head?, isOperandStart c = true := by
  obtain ⟨c, hc, hstart⟩ := h.start
  obtain ⟨d, cs, rfl⟩ := List.exists_cons_of_ne_nil h.ne_nil
  exact ⟨c, hc, hstart⟩

theorem after_blank (h : Operand t ts dot) : Lexes (' ' :: t) ts (Next (' ' :: t) dot) :=
  (h.lexes.blank h.ne_nil).of_end (t := [' ']) h.ne_nil

/-- An operand after a punctuator, which a blank keeps from running into the operand. -/
theorem after_mark (h : Operand t ts dot) (hm : m ∈ marks) (hdot : m ≠ ".") (clash : Bool)
    (hplus : m = "+" → clash = decide (t.head? = some '+'))
    (hminus : m = "-" → clash = decide (t.head? = some '-')) :
    Lexes (m.toList ++ if clash then ' ' :: t else t) (.mark m :: ts)
      (Next (m.toList ++ if clash then ' ' :: t else t) dot) := by
  cases clash with
  | true =>
    have hblank : ∀ m ∈ marks, fuses m ' ' = false := by decide +kernel
    refine (h.after_blank.mark (by simp) hm fun c hc => ?_).of_end (by simp)
    obtain rfl : ' ' = c := Option.some.inj hc
    exact hblank m hm
  | false =>
    obtain ⟨d, hd, hstart⟩ := h.start
    refine (h.lexes.mark h.ne_nil hm fun c hc => ?_).of_end h.ne_nil
    obtain rfl : d = c := Option.some.inj (hd.symm.trans hc)
    refine fuses_of_isOperandStart hm hstart hdot ?_ ?_
    · rintro hm rfl
      exact absurd hd (by simpa using hplus hm)
    · rintro hm rfl
      exact absurd hd (by simpa using hminus hm)

theorem spaced_eq_append (t : List Char) : ∃ u, spaced t = u ++ t := by
  cases t with
  | nil => exact ⟨[], rfl⟩
  | cons c cs =>
    rw [spaced]
    split
    · exact ⟨[' '], rfl⟩
    · exact ⟨[], rfl⟩

/-- An operand after a word. -/
theorem after_word (h : Operand t ts dot) (hw : Text.isName w = true) :
    Lexes (w.toList ++ spaced t) (.word w :: ts) (Next (w.toList ++ spaced t) dot) := by
  have hlexes := h.lexes.after_word h.ne_nil hw
  obtain ⟨u, hu⟩ := spaced_eq_append t
  rw [hu, ← List.append_assoc] at hlexes ⊢
  exact hlexes.of_end h.ne_nil

theorem under_word (h : Operand t ts dot) (hw : Text.isName w = true) :
    Operand (w.toList ++ spaced t) (.word w :: ts) dot := by
  obtain ⟨c, cs, hcs, hstart, -⟩ := exists_cons_of_isName hw
  exact ⟨⟨c, by simp [hcs], by simp [isOperandStart, hstart]⟩, h.after_word hw⟩

/-- An operand before what begins with a punctuator or a blank. -/
theorem lexes_append (h : Operand t ts dot) (hu : Lexes u us next) (hne : u ≠ [])
    (hc : ∀ c ∈ u.head?, Text.isNamePart c = false ∧ c ≠ '.') : Lexes (t ++ u) (ts ++ us) next := by
  refine h.lexes.append hu hne fun c hcu => ?_
  obtain ⟨hpart, hdot⟩ := hc c hcu
  exact ⟨fun _ _ _ => hpart, fun hc => absurd hc hdot⟩

theorem before (h : Operand t ts dot) {dot' : Bool} (hu : Lexes u us (Next u dot')) (hne : u ≠ [])
    (hc : ∀ c ∈ u.head?, Text.isNamePart c = false ∧ c ≠ '.') :
    Operand (t ++ u) (ts ++ us) dot' :=
  ⟨h.start_append u, (h.lexes_append hu hne hc).of_end hne⟩

/-- An operator between two operands. -/
theorem operator (h : Operand t ts dot) {dot' : Bool} (hu : Operand u us dot') (hm : m ∈ marks)
    (hdot : m ≠ ".") (clash : Bool) (hplus : m = "+" → clash = decide (u.head? = some '+'))
    (hminus : m = "-" → clash = decide (u.head? = some '-')) :
    Operand (t ++ (m.toList ++ if clash then ' ' :: u else u)) (ts ++ .mark m :: us) dot' :=
  h.before (hu.after_mark hm hdot clash hplus hminus) (by simp [mark_ne_nil hm])
    fun _ => head_mark hm hdot

/-- An operand before a word. -/
theorem before_word (h : Operand t ts dot) {dot' : Bool} (hw : Text.isName w = true)
    (hu : Lexes (w.toList ++ u) us (Next (w.toList ++ u) dot')) :
    Operand (withWord t w ++ u) (ts ++ us) dot' := by
  obtain ⟨c, cs, hcs, hstart, -⟩ := exists_cons_of_isName hw
  have hne : w.toList ++ u ≠ [] := by simp [hcs]
  obtain ⟨l, hl⟩ := Option.isSome_iff_exists.1 (List.getLast?_isSome.2 h.ne_nil)
  rw [withWord, hl]
  dsimp only
  by_cases hpart : Text.isNamePart l = true
  · rw [if_pos hpart, List.append_assoc, List.cons_append]
    refine h.before ((hu.blank hne).of_end (t := [' ']) hne) (by simp) fun d hd => ?_
    obtain rfl : ' ' = d := Option.some.inj hd
    exact ⟨rfl, by decide⟩
  · rw [if_neg hpart, List.append_assoc]
    refine ⟨h.start_append _, (h.lexes.append hu hne fun d hd => ?_).of_end hne⟩
    refine ⟨fun l' hl' hpart' => ?_, ?_⟩
    · obtain rfl : l = l' := Option.some.inj (hl.symm.trans hl')
      exact absurd hpart' hpart
    · rintro rfl
      obtain rfl : c = '.' := by simpa [hcs] using hd
      cases hstart

end Operand

/-- What ends in a bracket or in a sign that nothing lengthens may be followed by anything. -/
theorem operand_of_lexes (hstart : ∃ c ∈ t.head?, isOperandStart c = true)
    (h : Lexes t ts fun _ => True) (dot : Bool) : Operand t ts dot :=
  ⟨hstart, h.mono fun _ _ => trivial⟩

theorem operand_word (h : Text.isName w = true) (dot : Bool) : Operand w.toList [.word w] dot := by
  obtain ⟨c, cs, hcs, hstart, hall⟩ := exists_cons_of_isName h
  have hne : w.toList ≠ [] := by simp [hcs]
  obtain ⟨l, hl⟩ := Option.isSome_iff_exists.1 (List.getLast?_isSome.2 hne)
  refine ⟨⟨c, by simp [hcs], by simp [isOperandStart, hstart]⟩, (lexes_word h).mono fun d hd => ?_⟩
  refine hd.1 l hl ?_
  have hmem : l ∈ c :: cs := hcs ▸ List.mem_of_getLast? hl
  obtain rfl | hmem := List.mem_cons.1 hmem
  · exact isNamePart_of_isNameStart hstart
  · exact List.all_eq_true.1 hall l hmem

/-- What begins and ends in a digit. -/
theorem operand_of_digits {x : Float} (hhead : ∃ c ∈ t.head?, Number.isDigit c = true)
    (hlast : ∃ l ∈ t.getLast?, Number.isDigit l = true)
    (h : Lexes t [.number x] fun c => Text.isNamePart c = false ∧ c ≠ '.') :
    Operand t [.number x] false := by
  obtain ⟨c, hc, hdigit⟩ := hhead
  obtain ⟨l, hl, hlast⟩ := hlast
  refine ⟨⟨c, hc, by simp [isOperandStart, hdigit]⟩, h.mono fun d hd => ?_⟩
  exact ⟨hd.1 l hl (isNamePart_of_isDigit hlast), fun hdot => nomatch hd.2 hdot⟩

theorem operand_digits (n : Nat) : Operand (Nat.toDigits 10 n) [.number (.ofNat n)] false := by
  have hne : Nat.toDigits 10 n ≠ [] := Nat.toDigits_ne_nil
  have hdigits : ∀ c ∈ Nat.toDigits 10 n, Number.isDigit c = true :=
    fun c hc => Number.isDigit_of_mem_toDigits hc
  obtain ⟨c, hc⟩ := Option.isSome_iff_exists.1 (List.isSome_head?.2 hne)
  obtain ⟨l, hl⟩ := Option.isSome_iff_exists.1 (List.getLast?_isSome.2 hne)
  exact operand_of_digits ⟨c, hc, hdigits c (List.mem_of_mem_head? hc)⟩
    ⟨l, hl, hdigits l (List.mem_of_getLast? hl)⟩ (lexes_digits n)

theorem operand_quote (s : String) (dot : Bool) : Operand (Text.quote s) [.string s] dot :=
  operand_of_lexes ⟨'"', rfl, rfl⟩ (lexes_quote s) dot

/-- Punctuators that nothing runs into. -/
def steady : List String :=
  ["(", ")", "[", "]", "\x7b", "\x7d", ",", ";", "?", ":", "++", "--"]

theorem mem_marks_of_steady (hm : m ∈ steady) : m ∈ marks ∧ m ≠ "." ∧ m ≠ "+" ∧ m ≠ "-" := by
  have hall : ∀ m ∈ steady, m ∈ marks ∧ m ≠ "." ∧ m ≠ "+" ∧ m ≠ "-" := by decide
  exact hall m hm

theorem fuses_steady (hm : m ∈ steady) (c : Char) : fuses m c = false := by
  have hall : ∀ m ∈ steady, (∀ m' ∈ marks, m.toList <+: m'.toList → m' = m) ∧ m ≠ "." ∧ m ≠ "/" := by
    decide +kernel
  obtain ⟨hmaximal, hdot, hslash⟩ := hall m hm
  simpa [fuses, hdot, hslash] using not_prefix_of_maximal hmaximal c

theorem lexes_nil : Lexes [] [] fun _ => True := by
  intro rest _
  exact Option.map_id'.symm

theorem Lexes.steady (hu : Lexes u us next) (hm : m ∈ steady) :
    Lexes (m.toList ++ u) (.mark m :: us) next := by
  intro rest hrest
  rw [List.append_assoc, lexes_mark (mem_marks_of_steady hm).1 _ fun c _ => fuses_steady hm c,
    hu rest hrest, Option.map_map]
  rfl

theorem Operand.lexes_steady (h : Operand t ts dot) (hu : Lexes u us next) (hm : m ∈ steady) :
    Lexes (t ++ (m.toList ++ u)) (ts ++ .mark m :: us) next := by
  obtain ⟨hmark, hdot, -⟩ := mem_marks_of_steady hm
  exact h.lexes_append (hu.steady hm) (by simp [mark_ne_nil hmark]) fun _ => head_mark hmark hdot

theorem Operand.steady (h : Operand t ts dot) {dot' : Bool} (hu : Operand u us dot')
    (hm : m ∈ steady) : Operand (t ++ (m.toList ++ u)) (ts ++ .mark m :: us) dot' := by
  obtain ⟨hmark, hdot, hplus, hminus⟩ := mem_marks_of_steady hm
  exact h.operator hu hmark hdot false (absurd · hplus) (absurd · hminus)

/-- Operands with commas between them, up to the bracket after them. -/
theorem lexes_items {α : Type} {text : α → List Char} {tokens : α → List Token} {as : List α}
    (h : ∀ a ∈ as, Operand (text a) (tokens a) false) (hm : m ∈ steady) :
    Lexes (commaSeparated (as.map text) ++ m.toList) (separated (as.map tokens) ++ [.mark m])
      fun _ => True := by
  induction as with
  | nil => simpa [commaSeparated, separated] using lexes_nil.steady hm
  | cons a as ih =>
    have ha := h a List.mem_cons_self
    cases as with
    | nil => simpa [commaSeparated, separated] using ha.lexes_steady lexes_nil hm
    | cons b bs =>
      have hrest := ih fun b hb => h b (List.mem_cons_of_mem a hb)
      have hcomma := ha.lexes_steady hrest (m := ",") (by decide)
      simpa [commaSeparated, separated] using hcomma

namespace Operand

variable {name : String} {dot' : Bool}

theorem parenthesized (h : Operand t ts dot) :
    Operand (ScriptMinifier.parenthesized t) (bracketed "(" ts ")") true := by
  have hclosing := h.lexes_steady lexes_nil (m := ")") (by decide)
  exact operand_of_lexes ⟨'(', rfl, rfl⟩ (hclosing.steady (m := "(") (by decide)) true

theorem index (h : Operand t ts dot) (hu : Operand u us dot') :
    Operand (t ++ '[' :: u ++ [']']) (ts ++ bracketed "[" us "]") true := by
  have hclosing := hu.lexes_steady lexes_nil (m := "]") (by decide)
  have hlexes := h.lexes_steady hclosing (m := "[") (by decide)
  rw [List.append_assoc]
  exact operand_of_lexes (h.start_append _) hlexes true

theorem member (h : Operand t ts true) (hname : Text.isName name = true) :
    Operand (t ++ '.' :: name.toList) (ts ++ [.mark ".", .word name]) true := by
  have hword := operand_word hname true
  have hpoint := hword.lexes.mark hword.ne_nil (m := ".") (by decide) fun c hc => by
    obtain ⟨d, ds, hds, hstart, -⟩ := exists_cons_of_isName hname
    obtain rfl : d = c := by simpa [hds] using hc
    exact fuses_point hstart
  have hlexes := h.lexes.append (hpoint.of_end hword.ne_nil) (by simp) fun c hc => by
    obtain rfl : '.' = c := Option.some.inj hc
    exact ⟨fun _ _ _ => rfl, fun _ => rfl⟩
  exact ⟨h.start_append _, hlexes.of_end (by simp)⟩

/-- A sign after an operand. -/
theorem suffixed (h : Operand t ts dot) (hm : m ∈ Script.steady) :
    Operand (t ++ m.toList) (ts ++ [.mark m]) true := by
  have hlexes := h.lexes_steady lexes_nil hm
  rw [List.append_nil] at hlexes
  exact operand_of_lexes (h.start_append _) hlexes true

theorem choice {v : List Char} {vs : List Token} {dot'' : Bool} (h : Operand t ts dot)
    (hu : Operand u us dot') (hv : Operand v vs dot'') :
    Operand (t ++ '?' :: u ++ ':' :: v) (ts ++ .mark "?" :: us ++ .mark ":" :: vs) dot'' := by
  have hcolon := hu.steady hv (m := ":") (by decide)
  have hquestion := h.steady hcolon (m := "?") (by decide)
  simpa using hquestion

variable {α : Type} {text : α → List Char} {tokens : α → List Token} {as : List α}

/-- Arguments after what is called. -/
theorem applied (h : Operand t ts dot) (ha : ∀ a ∈ as, Operand (text a) (tokens a) false) :
    Operand (t ++ ScriptMinifier.parenthesized (commaSeparated (as.map text)))
      (ts ++ bracketed "(" (separated (as.map tokens)) ")") true :=
  operand_of_lexes (h.start_append _)
    (h.lexes_steady (lexes_items ha (m := ")") (by decide)) (m := "(") (by decide)) true

theorem construct (h : Operand t ts dot) (ha : ∀ a ∈ as, Operand (text a) (tokens a) false) :
    Operand ("new ".toList ++ t ++ ScriptMinifier.parenthesized (commaSeparated (as.map text)))
      (.word "new" :: ts ++ bracketed "(" (separated (as.map tokens)) ")") true := by
  have hcall := h.lexes_steady (lexes_items ha (m := ")") (by decide)) (m := "(") (by decide)
  have hname : Text.isName "new" = true := by decide
  have hblank := hcall.blank (by simp [h.ne_nil])
  have hnew := (lexes_word hname).append hblank (by simp) fun c hc => by
      obtain rfl : ' ' = c := Option.some.inj hc
      rfl
  rw [List.append_assoc]
  exact operand_of_lexes ⟨'n', rfl, by decide⟩ hnew true

end Operand

theorem operand_array {α : Type} {text : α → List Char} {tokens : α → List Token} {as : List α}
    (ha : ∀ a ∈ as, Operand (text a) (tokens a) false) :
    Operand ('[' :: commaSeparated (as.map text) ++ [']'])
      (bracketed "[" (separated (as.map tokens)) "]") true :=
  operand_of_lexes ⟨'[', rfl, rfl⟩
    ((lexes_items ha (m := "]") (by decide)).steady (m := "[") (by decide)) true

end Script

def UnaryOperator.token (op : UnaryOperator) : Script.Token :=
  if op.isWord then .word op.text else .mark op.text

def BinaryOperator.token (op : BinaryOperator) : Script.Token :=
  if op.isWord then .word op.text else .mark op.text

namespace Script

variable {t u : List Char} {ts us : List Token} {dot dot' : Bool}

theorem Operand.join_unary (h : Operand t ts dot) (op : UnaryOperator) :
    Operand (op.join t) (op.token :: ts) dot := by
  obtain ⟨c, cs, hcs, hstart⟩ :
      ∃ c cs, op.text.toList = c :: cs ∧ isOperandStart c = true := by
    cases op <;> exact ⟨_, _, rfl, by decide⟩
  refine ⟨⟨c, by simp [UnaryOperator.join, hcs], hstart⟩, ?_⟩
  rw [UnaryOperator.join, UnaryOperator.token]
  by_cases hword : op.isWord = true
  · have hname : Text.isName op.text = true := by
      cases op <;> first | rfl | cases hword
    rw [if_pos hword, if_pos hword]
    exact h.after_word hname
  · rw [if_neg hword, if_neg hword]
    refine h.after_mark ?_ ?_ (op.clashes t) ?_ ?_
    · cases op <;> first | decide | exact absurd rfl hword
    · cases op <;> decide
    · cases op <;> first | exact fun _ => rfl | exact fun h => absurd h (by decide)
    · cases op <;> first | exact fun _ => rfl | exact fun h => absurd h (by decide)

theorem Operand.assign (h : Operand t ts dot) (hu : Operand u us dot') (op : AssignOperator) :
    Operand (t ++ op.text.toList ++ u) (ts ++ .mark op.text :: us) dot' := by
  obtain ⟨hmark, hdot, hplus, hminus⟩ :
      op.text ∈ marks ∧ op.text ≠ "." ∧ op.text ≠ "+" ∧ op.text ≠ "-" := by
    cases op <;> decide
  rw [List.append_assoc]
  exact h.operator hu hmark hdot false (absurd · hplus) (absurd · hminus)

theorem Operand.join_binary (h : Operand t ts dot) (hu : Operand u us dot') (op : BinaryOperator) :
    Operand (op.join t u) (ts ++ op.token :: us) dot' := by
  rw [BinaryOperator.join, BinaryOperator.token]
  by_cases hword : op.isWord = true
  · have hname : Text.isName op.text = true := by
      cases op <;> first | rfl | cases hword
    rw [if_pos hword, if_pos hword]
    exact h.before_word hname (hu.after_word hname)
  · rw [if_neg hword, if_neg hword, List.append_assoc]
    refine h.operator hu ?_ ?_ (op.clashes u) ?_ ?_
    · cases op <;> first | decide | exact absurd rfl hword
    · cases op <;> decide
    · cases op <;> first | exact fun _ => rfl | exact fun h => absurd h (by decide)
    · cases op <;> first | exact fun _ => rfl | exact fun h => absurd h (by decide)

end Script

end ScriptMinifier
