import ScriptMinifier.Proofs.Sentences

namespace ScriptMinifier

open Script (Extent Fragment Lexes Nests Operand Outline Run Token)

namespace Script

variable {t : List Char} {ts : List Token} {next : Char → Prop}

/-- The tokens of a text that is made of tokens. -/
def tokens (t : List Char) : List Token := (scan t).getD []

theorem Lexes.tokens_eq (h : Lexes t ts next) : tokens t = ts := by
  rw [tokens, h.scan_eq, Option.getD_some]

end Script

/-- What stands under a word and what is in parentheses after it. -/
def Script.Outline.under (word : String) (t : List Char) (o : Outline) : Outline :=
  .headed (Script.tokens (word.toList ++ parenthesized t)) o

namespace Node

mutual

/-- How the statements of a tree nest. -/
def outline : Node → Outline
  | ⟨.block body, _⟩ => .block (outlines body)
  | ⟨.labeled label body, _⟩ => .headed [.word label.name] (outline body)
  | ⟨.branch condition body none, _⟩ =>
    .branch (Script.tokens condition.text) (outline body) none
  | ⟨.branch condition body (some alternative), _⟩ =>
    .branch (Script.tokens condition.text) (outline body) (some (outline alternative))
  | ⟨.loop .whileDo condition body, _⟩ => .under "while" condition.text (outline body)
  | ⟨.loop .doWhile condition body, _⟩ => .doWhile (outline body) (Script.tokens condition.text)
  | ⟨.forLoop init condition step body, _⟩ =>
    .under "for" (forHead init condition step) (outline body)
  | ⟨.forIn init subject body, _⟩ => .under "for" (forInHead init subject) (outline body)
  | ⟨.with_ subject body, _⟩ => .under "with" subject.text (outline body)
  | ⟨.switch subject cases, _⟩ => .under "switch" subject.text (.group (outlines cases))
  | ⟨.case (some test) body, _⟩ =>
    .headed (.word "case" :: Script.tokens test.text) (.group (outlines body))
  | ⟨.case none body, _⟩ => .headed [.word "default"] (.group (outlines body))
  | ⟨.try_ body handler finalizer, _⟩ =>
    .attempt (outlines body)
      ((match handler with
        | some handler => [outline handler]
        | none => []) ++
      match finalizer with
        | some finalizer => [outline finalizer]
        | none => [])
  | ⟨.catch_ param body, _⟩ => .under "catch" param.toList (.group (outlines body))
  | ⟨.finally_ body, _⟩ => .headed [.word "finally"] (.group (outlines body))
  | ⟨.declaration ⟨name, params, body, _, _⟩, _⟩ =>
    .headed (Script.tokens (functionHead name params)) (.group (outlines body))
  | n => .plain (Script.tokens n.text.dropLast)

def outlines : List Node → List Outline
  | [] => []
  | n :: ns => outline n :: outlines ns

end

end Node

namespace Script

variable {ts rest : List Token} {os : List Outline} {isOpen isOpen' : Bool}

/-- What may follow a statement goes on with no `try`, and with no `if` that the statement leaves
open. -/
def Ahead (isOpen : Bool) (rest : List Token) : Prop :=
  ∀ t ∈ rest.head?, t.handles = false ∧ (isOpen = true → t ≠ .word "else")

theorem Ahead.mono (h : Ahead isOpen rest) (hopen : isOpen' = true → isOpen = true) :
    Ahead isOpen' rest :=
  fun t ht => ⟨(h t ht).1, fun hopen' => (h t ht).2 (hopen hopen')⟩

theorem ahead_of_closes (h : ∀ t ∈ rest.head?, t.closes = true) : Ahead isOpen rest := by
  have hall : ∀ t ∈ [Token.mark "\x7d", .word "case", .word "default"],
      t.handles = false ∧ t ≠ .word "else" := by
    decide
  intro t ht
  obtain ⟨hhandles, helse⟩ := hall t (List.contains_iff_mem.1 (h t ht))
  exact ⟨hhandles, fun _ => helse⟩

theorem Nests.ahead (h : Nests .statements ts os rest) : Ahead isOpen ts := by
  cases h with
  | done hcloses => exact ahead_of_closes hcloses
  | more h _ =>
    obtain ⟨k, hk, hcontinues⟩ := h.head
    simp only [Token.continues, Bool.or_eq_false_iff, decide_eq_false_iff_not] at hcontinues
    intro t ht
    obtain rfl : k = t := Option.some.inj (hk.symm.trans ht)
    exact ⟨hcontinues.1.2, fun _ => hcontinues.2⟩

theorem Nests.closes (h : Nests .clauses ts os rest) : ∀ t ∈ ts.head?, t.closes = true := by
  cases h <;> rintro _ ⟨⟩ <;> rfl

theorem bracketed_append (opening closing : String) (ts rest : List Token) :
    bracketed opening ts closing ++ rest = .mark opening :: (ts ++ .mark closing :: rest) := by
  simp [bracketed]

end Script

namespace Node

open Script (Ahead Content Sentence bracketed)

variable {n a c body : Node} {t u : List Char} {ts us rest : List Token} {os : List Outline}
  {ns ms : List Node} {w : String} {dot : Bool} {extent : Extent} {span : Span}

/-- The statement is read from its text as it nests, whatever may follow. -/
def Nested (n : Node) : Prop :=
  ∃ ts, Lexes (n.asStatement n.text) ts (fun _ => True) ∧
    ∀ rest, Ahead n.endsOpen rest → Nests .statement (ts ++ rest) [n.outline] rest

/-- Statements, clauses or handlers are read from their texts as they nest, with what follows. -/
def AreNested (extent : Extent) (ns : List Node) : Prop :=
  ∃ ts, Lexes (statements ns) ts (fun _ => True) ∧
    ∀ us os rest, Nests extent us os rest → Nests extent (ts ++ us) (outlines ns ++ os) rest

theorem statements_append : statements (ns ++ ms) = statements ns ++ statements ms := by
  induction ns with
  | nil => rfl
  | cons n ns ih => rw [List.cons_append, statements, statements, ih, List.append_assoc]

theorem outlines_append : outlines (ns ++ ms) = outlines ns ++ outlines ms := by
  induction ns with
  | nil => rfl
  | cons n ns ih => rw [List.cons_append, outlines, outlines, ih, List.cons_append]

theorem outlines_eq (ns : List Node) : outlines ns = ns.map outline := by
  induction ns with
  | nil => rfl
  | cons n ns ih => rw [outlines, ih, List.map_cons]

namespace AreNested

theorem nil : AreNested extent [] := ⟨[], Script.lexes_nil, fun _ _ _ h => h⟩

theorem single (h : Lexes (n.asStatement n.text) ts fun _ => True)
    (hread : ∀ us os rest, Nests extent us os rest →
      Nests extent (ts ++ us) (n.outline :: os) rest) : AreNested extent [n] := by
  refine ⟨ts, ?_, hread⟩
  rw [statements, statements, List.append_nil]
  exact h

theorem append (h : AreNested extent ns) (h' : AreNested extent ms) :
    AreNested extent (ns ++ ms) := by
  obtain ⟨ts, hts, hread⟩ := h
  obtain ⟨us, hus, hread'⟩ := h'
  refine ⟨ts ++ us, ?_, fun vs os rest hvs => ?_⟩
  · rw [statements_append]
    exact hts.before_any hus
  · rw [outlines_append, List.append_assoc, List.append_assoc]
    exact hread _ _ _ (hread' _ _ _ hvs)

theorem of_forall (h : ∀ n ∈ ns, AreNested extent [n]) : AreNested extent ns := by
  induction ns with
  | nil => exact nil
  | cons n ns ih =>
    exact (h n List.mem_cons_self).append (ih fun m hm => h m (List.mem_cons_of_mem n hm))

/-- Up to what ends them. -/
theorem closed (h : AreNested .statements ns) : ∃ ts, Lexes (statements ns) ts (fun _ => True) ∧
    ∀ rest, (∀ t ∈ rest.head?, t.closes = true) →
      Nests .statements (ts ++ rest) (outlines ns) rest := by
  obtain ⟨ts, hts, hread⟩ := h
  refine ⟨ts, hts, fun rest hrest => ?_⟩
  have hdone := hread rest [] rest (.done hrest)
  rwa [List.append_nil] at hdone

theorem braced (h : AreNested .statements ns) : ∃ ts, Lexes (statements ns) ts (fun _ => True) ∧
    ∀ rest, Nests .statements (ts ++ .mark "\x7d" :: rest) (outlines ns)
      (.mark "\x7d" :: rest) := by
  obtain ⟨ts, hts, hread⟩ := h.closed
  refine ⟨ts, hts, fun rest => hread _ ?_⟩
  rintro _ ⟨⟩
  rfl

theorem isEnclosable (h : AreNested .statements ns) : IsEnclosable ns := by
  obtain ⟨ts, hts, hread⟩ := h.closed
  have hend := hread [] nofun
  rw [List.append_nil] at hend
  exact ⟨ts, hts, hend.run⟩

end AreNested

theorem Nested.areNested (h : n.Nested) : AreNested .statements [n] := by
  obtain ⟨ts, hts, hread⟩ := h
  exact .single hts fun us os rest hus => .more (hread us hus.ahead) hus

theorem AreNested.of_nested (h : ∀ n ∈ ns, n.Nested) : AreNested .statements ns :=
  .of_forall fun n hn => (h n hn).areNested

theorem Nested.ne_nil (h : n.Nested) : n.asStatement n.text ≠ [] := by
  obtain ⟨ts, hts, hread⟩ := h
  intro hnil
  rw [hnil] at hts
  obtain rfl : ts = [] := Option.some.inj (hts.scan_eq.symm.trans Script.scan_nil)
  obtain ⟨k, hk, -⟩ := (hread [] nofun).head
  cases hk

/-- What follows a word and the parentheses after it. -/
theorem under_text {v w : String} (hv : v.toList = w.toList ++ ['(']) (t u : List Char) :
    v.toList ++ t ++ ')' :: u = w.toList ++ parenthesized t ++ u := by
  simp [hv, parenthesized]

theorem text_forLoop (init condition step : Option Node) (body : Node) :
    (⟨.forLoop init condition step body, span⟩ : Node).text =
      "for".toList ++ parenthesized (forHead init condition step) ++
        body.asStatement body.text := by
  have htext (i c s : List Char) : "for(".toList ++ i ++ ';' :: c ++ ';' :: s ++
      ')' :: body.asStatement body.text =
        "for".toList ++ parenthesized (i ++ ';' :: (c ++ ';' :: s)) ++
          body.asStatement body.text := by
    simp [parenthesized]
  cases init <;> cases condition <;> cases step <;> exact htext _ _ _

namespace Nested

theorem of_lexes (h : Lexes t ts fun _ => True) (htext : n.asStatement n.text = t)
    (hread : ∀ rest, Ahead n.endsOpen rest → Nests .statement (ts ++ rest) [n.outline] rest) :
    n.Nested :=
  ⟨ts, htext ▸ h, hread⟩

theorem sentence (h : Sentence t ts dot) (htext : n.asStatement n.text = t ++ [';'])
    (houtline : n.outline = .plain (Script.tokens (t ++ [';']).dropLast)) : n.Nested := by
  refine ⟨_, htext ▸ h.ended, fun rest _ => ?_⟩
  rw [houtline, List.dropLast_concat, h.lexes.tokens_eq, List.append_assoc]
  exact .plain h.run h.plain

theorem expression (h : c.IsFragment) : (⟨.expression c, span⟩ : Node).Nested := by
  obtain ⟨ts, hts⟩ := h
  obtain ⟨us, dot, hus⟩ := hts.sentence
  exact sentence hus rfl rfl

theorem empty : (⟨.empty, span⟩ : Node).Nested := by
  refine ⟨[.mark ";"], Script.lexes_nil.steady (m := ";") (by decide), fun rest _ => ?_⟩
  have houtline : (⟨.empty, span⟩ : Node).outline = .plain [] := by
    change Outline.plain (Script.tokens []) = _
    rw [Script.lexes_nil.tokens_eq]
  rw [houtline]
  exact .plain .nil nofun

theorem debugger : (⟨.debugger, span⟩ : Node).Nested :=
  sentence (Sentence.word (w := "debugger") ⟨by decide, by decide, by decide⟩) rfl rfl

theorem exit {kind : ExitKind} {value : Option Node} (h : ∀ n ∈ value, n.IsFragment) :
    (⟨.exit kind value, span⟩ : Node).Nested := by
  obtain ⟨w, htext, hw⟩ : ∃ w, kind.text = String.toList w ∧ Script.Opens w := by
    cases kind <;> exact ⟨_, rfl, by decide, by decide, by decide⟩
  cases value with
  | none => exact sentence (htext ▸ Sentence.word hw) rfl rfl
  | some value =>
    obtain ⟨ts, hts⟩ := h value rfl
    exact sentence (htext ▸ Sentence.after_word hts.toOperand hts.run hw) rfl rfl

theorem jump {kind : JumpKind} {label : Option String}
    (h : ∀ l ∈ label, Text.isIdentifier l = true) : (⟨.jump kind label, span⟩ : Node).Nested := by
  obtain ⟨w, htext, hw⟩ : ∃ w, kind.text = String.toList w ∧ Script.Opens w := by
    cases kind <;> exact ⟨_, rfl, by decide, by decide, by decide⟩
  cases label with
  | none => exact sentence (htext ▸ Sentence.word hw) rfl rfl
  | some label =>
    have hlabel : Fragment label.toList [.word label] false := .identifier (h label rfl) false
    exact sentence (htext ▸ Sentence.blank hlabel.lexes hlabel.run hw) rfl rfl

theorem definitions {kind : DeclarationKind} {bs : List (Binding Node)} {hoisted : Bool}
    (h : ∀ b ∈ bs, Text.isIdentifier b.name = true ∧ ∀ v ∈ b.value, v.IsFragment) :
    (⟨.definitions kind bs hoisted, span⟩ : Node).Nested := by
  obtain ⟨ts, -, hts⟩ := sentence_definitions kind h
  exact sentence hts rfl rfl

theorem block (h : AreNested .statements ns) : (⟨.block ns, span⟩ : Node).Nested := by
  obtain ⟨ts, hts, hread⟩ := h.braced
  refine ⟨_, hts.braced, fun rest _ => ?_⟩
  rw [Script.bracketed_append]
  exact .block (hread _)

theorem labeled {label : Label} (hname : Text.isIdentifier label.name = true)
    (hbody : body.Nested) : (⟨.labeled label body, span⟩ : Node).Nested := by
  obtain ⟨us, hus, hread⟩ := hbody
  have hword := Script.operand_word (Text.isName_of_isIdentifier hname) false
  exact ⟨_, hword.lexes_steady hus (m := ":") (by decide), fun rest hrest =>
    .label (Text.not_mem_keywords hname) (hread rest hrest)⟩

/-- Braces keep an `else` from the last `if` of what is before it. -/
theorem guarded (h : body.Nested) : ∃ us,
    Lexes (if body.endsOpen then braced (body.asStatement body.text)
      else body.asStatement body.text) us (fun _ => True) ∧
    ∀ rest, Ahead false rest → Nests .statement (us ++ rest) [body.outline] rest := by
  split
  · -- a block that holds one statement alone has the outline of this
    obtain ⟨us, hus, hread⟩ : (Build.block [body]).Nested := block h.areNested
    change Lexes (braced (body.asStatement body.text ++ [])) us _ at hus
    rw [List.append_nil] at hus
    exact ⟨us, hus, hread⟩
  · rename_i hopen
    obtain ⟨us, hus, hread⟩ := h
    exact ⟨us, hus, fun rest hrest => hread rest (hrest.mono (absurd · hopen))⟩

theorem branch (hc : c.IsFragment) (hbody : body.Nested) :
    (⟨.branch c body none, span⟩ : Node).Nested := by
  obtain ⟨ts, hts⟩ := hc
  obtain ⟨us, hus, hread⟩ := hbody
  have hhead := hts.content.under (w := "if") (by decide)
  refine of_lexes (hhead.before_any hus) ?_ fun rest hrest => ?_
  · exact under_text (v := "if(") (by decide) c.text (body.asStatement body.text)
  · have helse : rest.head? ≠ some (.word "else") := fun helse => (hrest _ helse).2 rfl rfl
    change Nests _ _ [.branch (Script.tokens c.text) body.outline none] rest
    rw [hts.lexes.tokens_eq, List.append_assoc]
    exact .branch hts.content.run (hread rest (hrest.mono fun _ => rfl)) helse

theorem branchElse (hc : c.IsFragment) (hbody : body.Nested) (ha : a.Nested) :
    (⟨.branch c body (some a), span⟩ : Node).Nested := by
  obtain ⟨ts, hts⟩ := hc
  obtain ⟨us, hus, hread⟩ := hbody.guarded
  have hne := ha.ne_nil
  obtain ⟨vs, hvs, hread'⟩ := ha
  have hhead := hts.content.under (w := "if") (by decide)
  have helse := hvs.after_word hne (w := "else") (by decide)
  refine of_lexes ((hhead.before_any hus).before_any helse) ?_ fun rest hrest => ?_
  · have htext (t u : List Char) : "if(".toList ++ c.text ++ ')' :: t ++ "else".toList ++ u =
        "if".toList ++ parenthesized c.text ++ t ++ ("else".toList ++ u) := by
      simp [parenthesized]
    exact htext _ _
  · change Nests _ _ [.branch (Script.tokens c.text) body.outline (some a.outline)] rest
    rw [hts.lexes.tokens_eq, List.append_assoc, List.append_assoc]
    -- the body leaves no `if` open, so that the `else` may follow it
    refine .branchElse hts.content.run (hread _ ?_) (hread' rest hrest)
    rintro _ ⟨⟩
    exact ⟨rfl, fun h => by cases h⟩

/-- A statement after the parentheses of a loop or a `with`. -/
theorem under (hw : w ∈ ["while", "for", "with"]) (hcontent : Content t ts) (hbody : body.Nested)
    (htext : n.asStatement n.text =
      w.toList ++ parenthesized t ++ body.asStatement body.text)
    (houtline : n.outline = .under w t body.outline) (hopen : n.endsOpen = body.endsOpen) :
    n.Nested := by
  obtain ⟨us, hus, hread⟩ := hbody
  have hname : ∀ w ∈ ["while", "for", "with"], Text.isName w = true := by decide
  have hhead := hcontent.under (hname w hw)
  refine ⟨_, htext ▸ hhead.before_any hus, fun rest hrest => ?_⟩
  rw [hopen] at hrest
  rw [houtline, Outline.under, hhead.tokens_eq, List.append_assoc]
  exact .loop hw hcontent.run (hread rest hrest)

theorem whileDo (hc : c.IsFragment) (hbody : body.Nested) :
    (⟨.loop .whileDo c body, span⟩ : Node).Nested := by
  obtain ⟨ts, hts⟩ := hc
  have htext := under_text (v := "while(") (w := "while") (by decide) c.text
    (body.asStatement body.text)
  exact under (by decide) hts.content hbody htext rfl rfl

theorem with_ (hc : c.IsFragment) (hbody : body.Nested) :
    (⟨.with_ c body, span⟩ : Node).Nested := by
  obtain ⟨ts, hts⟩ := hc
  have htext := under_text (v := "with(") (w := "with") (by decide) c.text
    (body.asStatement body.text)
  exact under (by decide) hts.content hbody htext rfl rfl

theorem doWhile (hc : c.IsFragment) (hbody : body.Nested) :
    (⟨.loop .doWhile c body, span⟩ : Node).Nested := by
  obtain ⟨ts, hts⟩ := hc
  have hne := hbody.ne_nil
  obtain ⟨us, hus, hread⟩ := hbody
  have hwhile := hts.content.under (w := "while") (by decide)
  have hend := hwhile.before_any (Script.lexes_nil.steady (m := ";") (by decide))
  have hdo := hus.after_word hne (w := "do") (by decide)
  refine of_lexes (hdo.before_any hend) ?_ fun rest hrest => ?_
  · have htext (t : List Char) : "do".toList ++ t ++ "while(".toList ++ c.text ++ ");".toList =
        "do".toList ++ t ++ ("while".toList ++ parenthesized c.text ++ (";".toList ++ [])) := by
      simp [parenthesized]
    exact htext _
  · change Nests _ _ [.doWhile body.outline (Script.tokens c.text)] rest
    rw [hts.lexes.tokens_eq, List.append_assoc, List.append_assoc]
    refine .doWhile (hread _ ?_) hts.content.run
    rintro _ ⟨⟩
    exact ⟨rfl, fun _ => by decide⟩

theorem forLoop {init condition step : Option Node} (hi : ∀ n ∈ init, n.IsHead)
    (hc : ∀ n ∈ condition, n.IsFragment) (hs : ∀ n ∈ step, n.IsFragment) (hbody : body.Nested) :
    (⟨.forLoop init condition step body, span⟩ : Node).Nested := by
  obtain ⟨ts, hts⟩ := content_forHead hi hc hs
  exact under (by decide) hts hbody (text_forLoop init condition step body) rfl rfl

theorem forIn {init : Node} (hi : init.IsHead) (hc : c.IsFragment) (hbody : body.Nested) :
    (⟨.forIn init c body, span⟩ : Node).Nested := by
  obtain ⟨ts, hts⟩ := content_forInHead hi hc
  obtain ⟨is, dot, hinit, -⟩ := hi
  have htext (t u : List Char) (ht : t ≠ []) : withWord ("for(".toList ++ t) "in" ++ u ++
      ')' :: body.asStatement body.text =
        "for".toList ++ parenthesized (withWord t "in" ++ u) ++ body.asStatement body.text := by
    rw [withWord_append ht]
    simp [parenthesized]
  exact under (by decide) hts hbody (htext _ _ hinit.ne_nil) rfl rfl

end Nested

theorem AreNested.case {test : Node} (ht : test.IsFragment) (h : AreNested .statements ns) :
    AreNested .clauses [⟨.case (some test) ns, span⟩] := by
  obtain ⟨ts, hts⟩ := ht
  obtain ⟨us, hus, hread⟩ := h.closed
  have htest := hts.under_word (w := "case") (by decide)
  refine single (htest.lexes_steady hus (m := ":") (by decide)) fun vs os rest hvs => ?_
  change Nests _ _
    (.headed (.word "case" :: Script.tokens test.text) (.group (outlines ns)) :: os) _
  rw [hts.lexes.tokens_eq, List.append_assoc]
  exact .case hts.run (hread vs hvs.closes) hvs

theorem AreNested.default (h : AreNested .statements ns) :
    AreNested .clauses [⟨.case none ns, span⟩] := by
  obtain ⟨us, hus, hread⟩ := h.closed
  have hword := Script.operand_word (w := "default") (by decide) false
  have htext : "default:".toList ++ statements ns =
      "default".toList ++ (":".toList ++ statements ns) := by
    simp
  have hlexes := hword.lexes_steady hus (m := ":") (by decide)
  rw [← htext] at hlexes
  exact single hlexes fun vs os rest hvs => .default (hread vs hvs.closes) hvs

theorem AreNested.catch_ {param : String} (hparam : Text.isIdentifier param = true)
    (h : AreNested .statements ns) : AreNested .handlers [⟨.catch_ param ns, span⟩] := by
  obtain ⟨us, hus, hread⟩ := h.braced
  have hword := Script.operand_word (Text.isName_of_isIdentifier hparam) false
  have hhead := (Content.of_operand hword (.token rfl)).under (w := "catch") (by decide)
  have hlexes := hhead.before_any hus.braced
  rw [← under_text (v := "catch(") (by decide)] at hlexes
  refine single hlexes fun vs os rest hvs => ?_
  change Nests _ _ (.under "catch" param.toList (.group (outlines ns)) :: os) _
  rw [Outline.under, hhead.tokens_eq, List.append_assoc, Script.bracketed_append]
  exact .handler (hread _) hvs

theorem AreNested.finally_ (h : AreNested .statements ns) :
    AreNested .handlers [⟨.finally_ ns, span⟩] := by
  obtain ⟨us, hus, hread⟩ := h.braced
  refine single (hus.word_braced (w := "finally") (by decide)) fun vs os rest hvs => ?_
  rw [List.cons_append, Script.bracketed_append]
  exact .finalizer (hread _) hvs

theorem Nested.switch (hc : c.IsFragment) (h : AreNested .clauses ns) :
    (⟨.switch c ns, span⟩ : Node).Nested := by
  obtain ⟨cs, hcs⟩ := hc
  obtain ⟨us, hus, hread⟩ := h
  have hhead := hcs.content.under (w := "switch") (by decide)
  refine of_lexes (hhead.before_any hus.braced) ?_ fun rest _ => ?_
  · exact under_text (v := "switch(") (by decide) c.text (braced (statements ns))
  · have hclauses := hread (.mark "\x7d" :: rest) [] _ .noClause
    rw [List.append_nil] at hclauses
    change Nests _ _ [.under "switch" c.text (.group (outlines ns))] _
    rw [Outline.under, hhead.tokens_eq, List.append_assoc, Script.bracketed_append]
    exact .switch hcs.content.run hclauses

theorem Nested.try_ {handler finalizer : Option Node} (h : AreNested .statements ns)
    (hhandlers : AreNested .handlers (handler.toList ++ finalizer.toList)) :
    (⟨.try_ ns handler finalizer, span⟩ : Node).Nested := by
  obtain ⟨us, hus, hread⟩ := h.braced
  obtain ⟨vs, hvs, hread'⟩ := hhandlers
  have htry := hus.word_braced (w := "try") (by decide)
  refine of_lexes (htry.before_any hvs) ?_ fun rest hrest => ?_
  · have hclause (v : Option Node) : (match v with
        | some n => n.asStatement n.text
        | none => []) = statements v.toList := by
      cases v <;> simp [statements]
    rw [statements_append, ← hclause handler, ← hclause finalizer, ← List.append_assoc]
    cases handler <;> cases finalizer <;> rfl
  · have hhandlers := hread' rest [] rest (.noHandler fun t ht => (hrest t ht).1)
    rw [List.append_nil] at hhandlers
    have houtline : (⟨.try_ ns handler finalizer, span⟩ : Node).outline =
        .attempt (outlines ns) (outlines (handler.toList ++ finalizer.toList)) := by
      cases handler <;> cases finalizer <;> rfl
    rw [houtline, List.append_assoc, List.cons_append, Script.bracketed_append]
    exact .attempt (hread _) hhandlers

theorem Nested.declaration {l : Lambda Node} (hname : l.name.isSome = true) (hl : l.Spelled)
    (h : AreNested .statements l.body) : (⟨.declaration l, span⟩ : Node).Nested := by
  obtain ⟨name, params, body, usesArguments, hoisted⟩ := l
  obtain ⟨name, rfl⟩ := Option.isSome_iff_exists.1 hname
  obtain ⟨us, hus, hread⟩ := h.braced
  have hhead := Script.lexes_functionHead (fun n hn => Text.isName_of_isIdentifier (hl.1 n hn))
    fun p hp => Text.isName_of_isIdentifier (hl.2 p hp)
  have hparams : Run true (Script.separated (params.map fun p => [Token.word p])) :=
    .separated (List.forall_mem_map.2 fun _ _ => .token rfl)
  refine of_lexes (hhead.before_any hus.braced) rfl fun rest _ => ?_
  change Nests _ _ [.headed (Script.tokens _) (.group (outlines body))] _
  rw [hhead.tokens_eq, List.append_assoc, Script.bracketed_append]
  exact .function hparams (hread _)

end Node

end ScriptMinifier
