import ScriptMinifier.Proofs.Passages

namespace ScriptMinifier

open Script (Fragment Lexes Operand Run Token)

namespace Script

variable {t u : List Char} {ts us : List Token} {w : String} {dot : Bool}

/-- A text that is a statement once a semicolon ends it. -/
structure Sentence (t : List Char) (ts : List Token) (dot : Bool) : Prop extends
    Operand t ts dot where
  run : Run false ts
  plain : ∀ k ∈ ts.head?, k.isPlain = true

/-- A word that such a text may begin with. -/
structure Opens (w : String) : Prop where
  isName : Text.isName w = true
  plain : (Token.word w).isPlain = true
  move : (Token.word w).move false = .pass

/-- An expression is put in parentheses if it begins like another statement. -/
theorem Fragment.sentence (h : Fragment t ts dot) : ∃ us dot',
    Sentence (if Node.isGuarded t then ScriptMinifier.parenthesized t else t) us dot' := by
  split
  · refine ⟨_, _, h.parenthesized.toOperand, h.parenthesized.run, ?_⟩
    rintro _ ⟨⟩
    rfl
  · rename_i hguarded
    refine ⟨ts, dot, h.toOperand, h.run, ?_⟩
    obtain ⟨k, us, rfl, hk⟩ := h.begins
    rintro _ ⟨⟩
    exact hk.resolve_right hguarded

namespace Sentence

theorem word (hw : Opens w) : Sentence w.toList [.word w] false := by
  refine ⟨operand_word hw.isName false, .pass hw.move .nil, ?_⟩
  rintro _ ⟨⟩
  exact hw.plain

/-- An expression after a word. -/
theorem after_word (h : Operand t ts dot) (hrun : Run false ts) (hw : Opens w) :
    Sentence (w.toList ++ spaced t) (.word w :: ts) dot := by
  refine ⟨h.under_word hw.isName, .pass hw.move hrun, ?_⟩
  rintro _ ⟨⟩
  exact hw.plain

/-- What a blank keeps apart from a word. -/
theorem blank (h : Lexes t ts (Next t dot)) (hrun : Run false ts) (hw : Opens w) :
    Sentence (w.toList ++ ' ' :: t) (.word w :: ts) dot := by
  have hlexes : Lexes (w.toList ++ ' ' :: t) (.word w :: ts) (Next t dot) := by
    refine (lexes_word hw.isName).append (lexes_blank.before_any h) (by simp) fun c hc => ?_
    obtain rfl : ' ' = c := Option.some.inj hc
    rfl
  refine ⟨⟨(operand_word hw.isName false).start_append _, hlexes.mono fun c hc => ⟨?_, hc.2⟩⟩,
    .pass hw.move hrun, ?_⟩
  · cases t with
    | nil => exact nofun
    | cons d t =>
      have hclear := hc.1
      rw [List.append_cons, clear_append (by simp)] at hclear
      exact hclear
  · rintro _ ⟨⟩
    exact hw.plain

/-- A semicolon ends it. -/
theorem ended (h : Sentence t ts dot) :
    Lexes (t ++ [';']) (ts ++ [.mark ";"]) fun _ => True :=
  h.lexes_steady lexes_nil (m := ";") (by decide)

end Sentence

/-- A text that may stand in the parentheses of a statement. -/
structure Content (t : List Char) (ts : List Token) : Prop where
  run : Run true ts
  before : ∀ {u us m}, Lexes u us (fun _ => True) → m ∈ steady →
    Lexes (t ++ (m.toList ++ u)) (ts ++ .mark m :: us) fun _ => True

namespace Content

theorem empty : Content [] [] := ⟨.nil, fun hu hm => hu.steady hm⟩

theorem of_operand (h : Operand t ts dot) (hrun : Run true ts) : Content t ts :=
  ⟨hrun, fun hu hm => h.lexes_steady hu hm⟩

theorem separated (h : Content t ts) (hu : Content u us) :
    Content (t ++ ';' :: u) (ts ++ .mark ";" :: us) := by
  refine ⟨h.run.append (.pass rfl hu.run), fun {v vs m} hv hm => ?_⟩
  have hlexes := h.before (hu.before hv hm) (m := ";") (by decide)
  rw [List.append_assoc, List.append_assoc]
  exact hlexes

theorem under (h : Content t ts) (hw : Text.isName w = true) :
    Lexes (w.toList ++ parenthesized t) (.word w :: bracketed "(" ts ")") fun _ => True :=
  (operand_word hw false).before_parenthesis
    ((h.before lexes_nil (m := ")") (by decide)).steady (m := "(") (by decide))

end Content

/-- Braces after a word. -/
theorem Lexes.word_braced (h : Lexes t ts fun _ => True) (hw : Text.isName w = true) :
    Lexes (w.toList ++ ScriptMinifier.braced t) (.word w :: bracketed "\x7b" ts "\x7d")
      fun _ => True := by
  refine (operand_word hw false).lexes_append h.braced (by simp [ScriptMinifier.braced]) ?_
  rintro _ ⟨⟩
  exact ⟨rfl, by decide⟩

theorem Fragment.content (h : Fragment t ts dot) : Content t ts :=
  .of_operand h.toOperand h.run.within

end Script

namespace DeclarationKind

/-- The word that a declaration begins with. -/
def word : DeclarationKind → String
  | var => "var"
  | const => "const"

theorem text_eq (kind : DeclarationKind) : kind.text = kind.word.toList ++ [' '] := by
  cases kind <;> decide

theorem opens_word (kind : DeclarationKind) : Script.Opens kind.word := by
  cases kind <;> exact ⟨by decide, by decide, by decide⟩

end DeclarationKind

namespace Node

open Script (Content Sentence)

variable {n : Node} {t u : List Char} {span : Span}

theorem withWord_append (hu : u ≠ []) (w : String) : withWord (t ++ u) w = t ++ withWord u w := by
  obtain ⟨l, hl⟩ := Option.isSome_iff_exists.1 (List.getLast?_isSome.2 hu)
  rw [withWord, withWord, List.getLast?_append_of_ne_nil _ hu, hl]
  dsimp only
  split <;> rw [List.append_assoc]

/-- The text stands at the start of the parentheses of a `for`. -/
def IsHead (n : Node) : Prop := ∃ ts dot, Operand (n.inHead n.text) ts dot ∧ Run true ts

theorem IsFragment.content (h : n.IsFragment) : ∃ ts, Content n.text ts := by
  obtain ⟨ts, hts⟩ := h
  exact ⟨ts, hts.content⟩

theorem IsHead.content (h : n.IsHead) : ∃ ts, Content (n.inHead n.text) ts := by
  obtain ⟨ts, dot, hts, hrun⟩ := h
  exact ⟨ts, .of_operand hts hrun⟩

theorem IsFragment.isHead (h : n.IsFragment) (hs : n.isStatement = false) : n.IsHead := by
  obtain ⟨ts, hts⟩ := h
  rw [IsHead, inHead]
  split
  · rename_i hform
    rw [isStatement, hform] at hs
    cases hs
  · exact ⟨_, _, hts.parenthesized.toOperand, hts.parenthesized.run.within⟩
  · exact ⟨_, _, hts.toOperand, hts.run.within⟩

/-- The text of one binding of a declaration. -/
def bindingText (b : Binding Node) : List Char :=
  b.name.toList ++ b.value.elim [] fun v => '=' :: v.enclosed Precedence.assign v.text

theorem bindingTexts_eq (bs : List (Binding Node)) : bindingTexts bs = bs.map bindingText := by
  induction bs with
  | nil => rfl
  | cons b bs ih =>
    obtain ⟨name, value, span⟩ := b
    cases value <;> simp [bindingTexts, bindingText, ih]

theorem fragment_bindingText {b : Binding Node} (hname : Text.isIdentifier b.name = true)
    (hvalue : ∀ v ∈ b.value, v.IsFragment) : ∃ ts, Fragment (bindingText b) ts false := by
  obtain ⟨name, value, bspan⟩ := b
  have hword : Fragment name.toList [.word name] false := .identifier hname false
  cases value with
  | none =>
    rw [bindingText, Option.elim_none, List.append_nil]
    exact ⟨_, hword⟩
  | some value =>
    obtain ⟨ts, hts⟩ := (hvalue value rfl).enclosed Precedence.assign
    have hassign := hword.assign hts .assign
    rw [List.append_assoc] at hassign
    exact ⟨_, hassign⟩

theorem fragment_bindingTexts {bs : List (Binding Node)}
    (h : ∀ b ∈ bs, Text.isIdentifier b.name = true ∧ ∀ v ∈ b.value, v.IsFragment) :
    ∃ tokens : Binding Node → List Token,
      ∀ b ∈ bs, Fragment (bindingText b) (tokens b) false := by
  have hall := fun b hb => fragment_bindingText (h b hb).1 (h b hb).2
  choose! tokens htokens using hall
  exact ⟨tokens, htokens⟩

theorem sentence_definitions (kind : DeclarationKind) {bs : List (Binding Node)}
    (h : ∀ b ∈ bs, Text.isIdentifier b.name = true ∧ ∀ v ∈ b.value, v.IsFragment) :
    ∃ ts, Lexes (commaSeparated (bindingTexts bs)) ts
        (Script.Next (commaSeparated (bindingTexts bs)) false) ∧
      Sentence (kind.text ++ commaSeparated (bindingTexts bs)) (.word kind.word :: ts) false := by
  obtain ⟨tokens, htokens⟩ := fragment_bindingTexts h
  obtain ⟨ts, hlexes, hrun⟩ : ∃ ts, Lexes (commaSeparated (bindingTexts bs)) ts
      (Script.Next (commaSeparated (bindingTexts bs)) false) ∧ Run false ts := by
    rw [bindingTexts_eq]
    by_cases hne : bs = []
    · rw [hne]
      exact ⟨[], Script.lexes_nil.mono fun _ _ => trivial, .nil⟩
    · exact ⟨_, (Fragment.commas hne htokens).lexes, (Fragment.commas hne htokens).run⟩
  have hsentence := Sentence.blank hlexes hrun kind.opens_word
  refine ⟨ts, hlexes, ?_⟩
  rw [kind.text_eq, List.append_assoc]
  exact hsentence

theorem isHead_definitions {kind : DeclarationKind} {bs : List (Binding Node)} {hoisted : Bool}
    (h : ∀ b ∈ bs, Text.isIdentifier b.name = true ∧ ∀ v ∈ b.value, v.IsFragment) :
    (⟨.definitions kind bs hoisted, span⟩ : Node).IsHead := by
  obtain ⟨ts, -, hts⟩ := sentence_definitions kind h
  refine ⟨_, false, ?_, hts.run.within⟩
  change Operand (_ ++ [';']).dropLast _ _
  rw [List.dropLast_concat]
  exact hts.toOperand

/-- What stands in the parentheses of a `for`. -/
def forHead (init condition step : Option Node) : List Char :=
  init.elim [] (fun n => n.inHead n.text) ++ ';' :: (condition.elim [] text ++
    ';' :: step.elim [] text)

/-- What stands in the parentheses of a `for` over the properties of an object. -/
def forInHead (init subject : Node) : List Char :=
  withWord (init.inHead init.text) "in" ++ spaced subject.text

/-- What a `for` goes on with after the first semicolon. -/
theorem content_after_init {condition step : Option Node} {is : List Token} (hi : Content t is)
    (hc : ∀ n ∈ condition, n.IsFragment) (hs : ∀ n ∈ step, n.IsFragment) :
    ∃ ts, Content (t ++ ';' :: (condition.elim [] text ++ ';' :: step.elim [] text))
      (is ++ .mark ";" :: ts) := by
  have hcontent {v : Option Node} (h : ∀ n ∈ v, n.IsFragment) :
      ∃ ts, Content (v.elim [] text) ts := by
    cases v with
    | none => exact ⟨[], .empty⟩
    | some n => exact (h n rfl).content
  obtain ⟨cs, hcondition⟩ := hcontent hc
  obtain ⟨ss, hstep⟩ := hcontent hs
  exact ⟨_, hi.separated (hcondition.separated hstep)⟩

theorem content_forHead {init condition step : Option Node} (hi : ∀ n ∈ init, n.IsHead)
    (hc : ∀ n ∈ condition, n.IsFragment) (hs : ∀ n ∈ step, n.IsFragment) :
    ∃ ts, Content (forHead init condition step) ts := by
  obtain ⟨is, hinit⟩ : ∃ is, Content (init.elim [] fun n => n.inHead n.text) is := by
    cases init with
    | none => exact ⟨[], .empty⟩
    | some n => exact (hi n rfl).content
  obtain ⟨ts, hts⟩ := content_after_init hinit hc hs
  exact ⟨_, hts⟩

theorem content_forInHead {init subject : Node} (hi : init.IsHead) (hs : subject.IsFragment) :
    ∃ ts, Content (forInHead init subject) ts := by
  obtain ⟨is, dot, hinit, hrun⟩ := hi
  obtain ⟨ts, hts⟩ := hs
  have hin : Text.isName "in" = true := by decide
  have hoperand := hinit.before_word hin (hts.after_word hin)
  exact ⟨_, .of_operand hoperand (hrun.append (.pass rfl hts.run.within))⟩

end Node

end ScriptMinifier
