import ScriptMinifier.Proofs.Alternatives
import ScriptMinifier.Proofs.BareWords

namespace ScriptMinifier

open Script (BareIn Fragment Lexes Run Token)

namespace Node

variable {n l r c : Node} {form : Form Node} {span : Span} {q : Nat} {ns : List Node}

/-- An `in` of the expression is printed without brackets around it. -/
def baresIn : Node → Bool
  | ⟨.binary op l r, _⟩ =>
    op = .inside || (op.precedence ≤ l.precedence && baresIn l) ||
      (op.precedence + 1 ≤ r.precedence && baresIn r)
  | ⟨.assign _ _ value, _⟩ => Precedence.assign ≤ value.precedence && baresIn value
  | ⟨.conditional c a b, _⟩ =>
    (Precedence.or ≤ c.precedence && baresIn c) ||
      (Precedence.assign ≤ a.precedence && baresIn a) ||
      (Precedence.assign ≤ b.precedence && baresIn b)
  | ⟨.sequence a b, _⟩ => baresIn a || baresIn b
  | _ => false

/-- What binds like an operand of an operator shows no `in`. -/
theorem precedence_lt_of_baresIn (h : n.baresIn = true) : n.precedence < Precedence.unary := by
  obtain ⟨form, span⟩ := n
  cases form with
  | binary op => cases op <;> exact Nat.le_of_ble_eq_true rfl
  | assign | conditional | sequence => exact Nat.le_of_ble_eq_true rfl
  | _ => cases h

/-- The text of the expression shows a bare `in` if and only if `baresIn` says so. -/
structure TellsIn (n : Node) : Prop where
  isFragment : n.IsFragment
  bareIn : BareIn n.text ↔ n.baresIn = true

theorem IsFragment.bareIn_enclosed (h : n.IsFragment) (q : Nat) :
    BareIn (n.enclosed q n.text) ↔ q ≤ n.precedence ∧ BareIn n.text := by
  obtain ⟨ts, hts⟩ := h
  rw [Node.enclosed]
  split
  · rename_i hlt
    simp [hts.not_bareIn_parenthesized, hlt]
  · rename_i hle
    rw [and_iff_right (Nat.le_of_not_lt hle)]

namespace TellsIn

theorem enclosed (h : n.TellsIn) (q : Nat) :
    BareIn (n.enclosed q n.text) ↔ (q ≤ n.precedence && n.baresIn) = true := by
  rw [h.isFragment.bareIn_enclosed, h.bareIn, Bool.and_eq_true, decide_eq_true_eq]

theorem not_bareIn_enclosed (h : n.TellsIn) (hq : Precedence.unary ≤ q) :
    ¬BareIn (n.enclosed q n.text) := by
  rw [h.enclosed, Bool.and_eq_true, decide_eq_true_eq]
  rintro ⟨hle, hbares⟩
  have hlt := precedence_lt_of_baresIn hbares
  omega

theorem unary {op : UnaryOperator} (h : n.TellsIn) :
    ¬BareIn (⟨.unary op n, span⟩ : Node).text := by
  obtain ⟨ts, hts⟩ := h.isFragment.enclosed Precedence.unary
  change ¬BareIn (op.join _)
  rw [hts.bareIn_join_unary]
  exact h.not_bareIn_enclosed (Nat.le_refl _)

theorem update {op : UnaryOperator} (h : n.TellsIn) (hop : op = .increment ∨ op = .decrement) :
    ¬BareIn (⟨.update op n, span⟩ : Node).text := by
  obtain ⟨ts, hts⟩ := h.isFragment.enclosed Precedence.call
  have hsuffix : Script.bareWords [.mark op.text] = [] := by
    rcases hop with rfl | rfl <;> decide
  change ¬BareIn (_ ++ op.text.toList)
  rw [hts.bareIn_append (hts.update hop) hsuffix]
  exact h.not_bareIn_enclosed (by decide)

theorem binary {op : BinaryOperator} (hl : l.TellsIn) (hr : r.TellsIn) :
    BareIn (⟨.binary op l r, span⟩ : Node).text ↔
      (⟨.binary op l r, span⟩ : Node).baresIn = true := by
  obtain ⟨ts, hts⟩ := hl.isFragment.enclosed op.precedence
  obtain ⟨us, hus⟩ := hr.isFragment.enclosed (op.precedence + 1)
  change BareIn (op.join _ _) ↔ _
  rw [hts.bareIn_join_binary hus, hl.enclosed, hr.enclosed, baresIn, Bool.or_eq_true,
    Bool.or_eq_true, decide_eq_true_eq, or_assoc, or_left_comm]

theorem assign {op : AssignOperator} (hl : l.TellsIn) (hr : r.TellsIn) :
    BareIn (⟨.assign op l r, span⟩ : Node).text ↔
      (⟨.assign op l r, span⟩ : Node).baresIn = true := by
  obtain ⟨ts, hts⟩ := hl.isFragment.enclosed Precedence.call
  obtain ⟨us, hus⟩ := hr.isFragment.enclosed Precedence.assign
  change BareIn (_ ++ op.text.toList ++ _) ↔ _
  rw [hts.bareIn_assign hus, or_iff_right (hl.not_bareIn_enclosed (by decide)), hr.enclosed,
    baresIn]

theorem conditional (hc : c.TellsIn) (hl : l.TellsIn) (hr : r.TellsIn) :
    BareIn (⟨.conditional c l r, span⟩ : Node).text ↔
      (⟨.conditional c l r, span⟩ : Node).baresIn = true := by
  obtain ⟨ts, hts⟩ := hc.isFragment.enclosed Precedence.or
  obtain ⟨us, hus⟩ := hl.isFragment.enclosed Precedence.assign
  obtain ⟨vs, hvs⟩ := hr.isFragment.enclosed Precedence.assign
  change BareIn (_ ++ '?' :: _ ++ ':' :: _) ↔ _
  rw [hts.bareIn_choice hus hvs, hc.enclosed, hl.enclosed, hr.enclosed, baresIn, Bool.or_eq_true,
    Bool.or_eq_true, or_assoc]

theorem sequence (hl : l.TellsIn) (hr : r.TellsIn) :
    BareIn (⟨.sequence l r, span⟩ : Node).text ↔
      (⟨.sequence l r, span⟩ : Node).baresIn = true := by
  obtain ⟨ts, hts⟩ := hl.isFragment
  obtain ⟨us, hus⟩ := hr.isFragment
  change BareIn (_ ++ ',' :: _) ↔ _
  rw [hts.bareIn_sequence hus, hl.bareIn, hr.bareIn, baresIn, Bool.or_eq_true]

theorem member {name : String} (h : n.TellsIn) (hname : Text.isName name = true) :
    ¬BareIn (⟨.member n name, span⟩ : Node).text := by
  obtain ⟨ts, hts⟩ := h.isFragment.subject
  change ¬BareIn (_ ++ '.' :: name.toList)
  rw [hts.bareIn_append (hts.member hname) rfl]
  split
  · obtain ⟨us, hus⟩ := h.isFragment
    exact hus.not_bareIn_parenthesized
  · exact h.not_bareIn_enclosed (by decide)

theorem index (hl : l.TellsIn) (hr : r.TellsIn) :
    ¬BareIn (⟨.index l r, span⟩ : Node).text := by
  obtain ⟨ts, hts⟩ := hl.isFragment.enclosed Precedence.call
  obtain ⟨us, hus⟩ := hr.isFragment
  change ¬BareIn (_ ++ '[' :: _ ++ [']'])
  rw [hts.bareIn_append (hts.index hus) (Script.bareWords_bracketed hus.run.within rfl)]
  exact hl.not_bareIn_enclosed (by decide)

theorem call (hl : l.TellsIn) (h : ∀ n ∈ ns, n.IsFragment) :
    ¬BareIn (⟨.call l ns, span⟩ : Node).text := by
  obtain ⟨ts, hts⟩ := hl.isFragment.enclosed Precedence.call
  obtain ⟨tokens, htokens⟩ := IsFragment.items h
  change ¬BareIn (_ ++ parenthesized (commaSeparated (items ns)))
  rw [items_eq, hts.bareIn_append (hts.applied htokens)
    (Script.bareWords_bracketed (Fragment.run_separated htokens) rfl)]
  exact hl.not_bareIn_enclosed (by decide)

theorem construct (hl : l.TellsIn) (h : ∀ n ∈ ns, n.IsFragment) :
    ¬BareIn (⟨.construct l ns, span⟩ : Node).text := by
  obtain ⟨ts, hts⟩ := hl.isFragment.constructor
  obtain ⟨tokens, htokens⟩ := IsFragment.items h
  change ¬BareIn ("new ".toList ++ _ ++ parenthesized (commaSeparated (items ns)))
  rw [items_eq, hts.bareIn_construct htokens]
  split
  · obtain ⟨us, hus⟩ := hl.isFragment
    exact hus.not_bareIn_parenthesized
  · exact hl.not_bareIn_enclosed (by decide)

end TellsIn

theorem not_bareIn_array (h : ∀ n ∈ ns, n.IsFragment) :
    ¬BareIn (⟨.array ns, span⟩ : Node).text := by
  obtain ⟨tokens, htokens⟩ := IsFragment.items h
  change ¬BareIn ('[' :: commaSeparated (items ns) ++ [']'])
  rw [items_eq]
  exact (Fragment.array htokens).not_bareIn_bracketed (Fragment.run_separated htokens) rfl

theorem not_bareIn_number {x : Float} : ¬BareIn (⟨.number x, span⟩ : Node).text := by
  obtain ⟨ts, hts, hwords⟩ := Fragment.sourceText x
  change ¬BareIn (Number.sourceText x)
  rw [Script.bareIn_iff hts.lexes]
  exact fun hin => hwords "in" (Script.mem_of_mem_bareWordsFrom hin)

theorem not_bareIn_string {s : String} : ¬BareIn (⟨.string s, span⟩ : Node).text := by
  change ¬BareIn (Text.quote s)
  rw [Script.bareIn_iff (Script.operand_quote s true).lexes]
  exact List.not_mem_nil

theorem not_bareIn_undefined : ¬BareIn (⟨.undefined, span⟩ : Node).text := by
  have hzero : Fragment ['0'] [.number (.ofNat 0)] false := .digits 0
  change ¬BareIn (UnaryOperator.void.join ['0'])
  rw [hzero.bareIn_join_unary, Script.bareIn_iff hzero.lexes]
  exact List.not_mem_nil

theorem not_bareIn_object {ps : List (Property Node)}
    (h : ∀ p ∈ ps, p.value.IsFragment ∧ p.value.IsOpened) :
    ¬BareIn (⟨.object ps, span⟩ : Node).text := by
  obtain ⟨ts, hts, hrun⟩ := fragment_object h
  exact hts.not_bareIn_bracketed hrun rfl

theorem not_bareIn_function {l : Lambda Node} (h : (⟨.function l, span⟩ : Node).IsOpened) :
    ¬BareIn (⟨.function l, span⟩ : Node).text := by
  obtain ⟨⟨hname, hparams⟩, ts, hts, hrun⟩ := h l rfl
  obtain ⟨name, params, body, usesArguments, hoisted⟩ := l
  exact Fragment.not_bareIn_lambda hname
    (fun p hp => Text.isName_of_isIdentifier (hparams p hp)) hts hrun

/-- One layer of syntax. -/
theorem tellsIn_layer (hform : form.isStatement = false) (hspelled : form.Spelled)
    (hparts : ∀ j a, (j, a) ∈ form.parts → j.Reads a)
    (h : form.opensScope = false → ∀ c ∈ form.children, c.TellsIn) :
    (⟨form, span⟩ : Node).TellsIn := by
  obtain ⟨hfragment, hopened⟩ : (⟨form, span⟩ : Node).IsFragment ∧ (⟨form, span⟩ : Node).IsOpened :=
    fragment_layer hform hspelled hparts
  refine ⟨hfragment, ?_⟩
  have hnone (hbare : ¬BareIn (⟨form, span⟩ : Node).text)
      (hbares : (⟨form, span⟩ : Node).baresIn = false) :
      BareIn (⟨form, span⟩ : Node).text ↔ (⟨form, span⟩ : Node).baresIn = true := by
    simp [hbare, hbares]
  cases form with
  | binary op l r =>
    exact TellsIn.binary (h rfl l (by simp [Form.children])) (h rfl r (by simp [Form.children]))
  | assign op l r =>
    exact TellsIn.assign (h rfl l (by simp [Form.children])) (h rfl r (by simp [Form.children]))
  | conditional c a b =>
    exact TellsIn.conditional (h rfl c (by simp [Form.children]))
      (h rfl a (by simp [Form.children])) (h rfl b (by simp [Form.children]))
  | sequence a b =>
    exact TellsIn.sequence (h rfl a (by simp [Form.children])) (h rfl b (by simp [Form.children]))
  | unary op x => exact hnone (h rfl x (by simp [Form.children])).unary rfl
  | update op x => exact hnone ((h rfl x (by simp [Form.children])).update hspelled) rfl
  | member e name => exact hnone ((h rfl e (by simp [Form.children])).member hspelled) rfl
  | index e p =>
    exact hnone ((h rfl e (by simp [Form.children])).index (h rfl p (by simp [Form.children]))) rfl
  | call e args =>
    refine hnone ((h rfl e (by simp [Form.children])).call fun a ha => ?_) rfl
    exact (h rfl a (by simp [Form.children, ha])).isFragment
  | construct e args =>
    refine hnone ((h rfl e (by simp [Form.children])).construct fun a ha => ?_) rfl
    exact (h rfl a (by simp [Form.children, ha])).isFragment
  | array es => exact hnone (not_bareIn_array fun e he => (h rfl e he).isFragment) rfl
  | object ps =>
    refine hnone (not_bareIn_object fun p hp => ?_) rfl
    exact hparts .expression p.value (List.mem_map_of_mem hp)
  | function l => exact hnone (not_bareIn_function hopened) rfl
  | number x => exact hnone not_bareIn_number rfl
  | identifier name => exact hnone (Script.not_bareIn_identifier hspelled) rfl
  | string s => exact hnone not_bareIn_string rfl
  | undefined => exact hnone not_bareIn_undefined rfl
  | boolean b =>
    cases b with
    | true => exact hnone (Script.not_bareIn_word (w := "true") (by decide) (by decide)) rfl
    | false => exact hnone (Script.not_bareIn_word (w := "false") (by decide) (by decide)) rfl
  | null => exact hnone (Script.not_bareIn_word (w := "null") (by decide) (by decide)) rfl
  | this => exact hnone (Script.not_bareIn_word (w := "this") (by decide) (by decide)) rfl
  | _ => cases hform

theorem Printable.isStatement {k : Category} (h : n.Printable k)
    (hk : k = .expression ∨ k = .condition ∨ k = .target) : n.isStatement = false := by
  cases h with
  | mk hholds =>
    obtain rfl | rfl | rfl := hk <;> simpa [Category.holds, Node.isStatement] using hholds

theorem Printable.tellsIn {k : Category} (h : n.Printable k) (hn : n.isStatement = false) :
    n.TellsIn := by
  induction h with
  | @mk k form span hk hspelled hparts ih =>
    refine tellsIn_layer hn hspelled (fun j a ha => (hparts j a ha).reads) fun hscope c hc => ?_
    obtain ⟨j, hj⟩ := Form.exists_part hc
    have hplace := Form.expression_of_mem_parts hn hscope hj
    exact ih j c hj ((hparts j c hj).isStatement hplace)

/-- An `in` stands bare in the head of a `for` that starts with this. -/
def baresInHead (init : Node) : Bool :=
  match init.form with
  | .definitions _ bs _ =>
    bs.any fun b => b.value.any fun v => Precedence.assign ≤ v.precedence && v.baresIn
  | .binary .inside .. => false
  | _ => init.baresIn

theorem bareIn_bindingText {b : Binding Node} (hname : Text.isIdentifier b.name = true)
    (hvalue : ∀ v ∈ b.value, v.TellsIn) : BareIn (bindingText b) ↔
      b.value.any (fun v => Precedence.assign ≤ v.precedence && v.baresIn) = true := by
  obtain ⟨name, value, bspan⟩ := b
  have hword : Fragment name.toList [.word name] false := .identifier hname false
  cases value with
  | none => simpa [bindingText] using Script.not_bareIn_identifier hname
  | some v =>
    have hv := hvalue v rfl
    obtain ⟨ts, hts⟩ := hv.isFragment.enclosed Precedence.assign
    have hassign := hword.bareIn_assign hts .assign
    rw [or_iff_right (Script.not_bareIn_identifier hname), List.append_assoc] at hassign
    exact hassign.trans (hv.enclosed _)

theorem inHead_definitions {kind : DeclarationKind} {bs : List (Binding Node)} {hoisted : Bool} :
    (⟨.definitions kind bs hoisted, span⟩ : Node).inHead
        (⟨.definitions kind bs hoisted, span⟩ : Node).text =
      kind.text ++ commaSeparated (bindingTexts bs) := by
  change (_ ++ [';']).dropLast = _
  rw [List.dropLast_concat]

theorem exists_head_definitions {kind : DeclarationKind} {bs : List (Binding Node)}
    {hoisted : Bool} (hnames : ∀ b ∈ bs, Text.isIdentifier b.name = true)
    (hvalues : ∀ b ∈ bs, ∀ v ∈ b.value, v.TellsIn) : ∃ ts dot,
    Script.Operand (kind.text ++ commaSeparated (bindingTexts bs)) ts dot ∧ Run false ts ∧
      ("in" ∈ Script.bareWords ts ↔
        (⟨.definitions kind bs hoisted, span⟩ : Node).baresInHead = true) := by
  have hb : ∀ b ∈ bs, Text.isIdentifier b.name = true ∧ ∀ v ∈ b.value, v.IsFragment :=
    fun b hb => ⟨hnames b hb, fun v hv => (hvalues b hb v hv).isFragment⟩
  obtain ⟨ts, hlexes, hsentence⟩ := sentence_definitions kind hb
  obtain ⟨tokens, htokens⟩ := fragment_bindingTexts hb
  have hword : Token.word kind.word ≠ .word "in" := by cases kind <;> decide
  refine ⟨_, _, hsentence.toOperand, hsentence.run, ?_⟩
  rw [Script.mem_bareWords_cons kind.opens_word.move, or_iff_right hword,
    ← Script.bareIn_iff hlexes, bindingTexts_eq, Fragment.bareIn_commas htokens]
  change _ ↔ bs.any _ = true
  rw [List.any_eq_true]
  exact exists_congr fun b => and_congr_right fun hb =>
    bareIn_bindingText (hnames b hb) (hvalues b hb)

/-- What a `for` starts with is a run, in which an `in` stands bare if `baresInHead` says so. -/
theorem Printable.exists_head (h : n.Printable .head) : ∃ ts dot,
    Script.Operand (n.inHead n.text) ts dot ∧ Run false ts ∧
      ("in" ∈ Script.bareWords ts ↔ n.baresInHead = true) := by
  have hexpression (hn : n.isStatement = false) (hbares : n.baresInHead = n.baresIn)
      (hhead : n.inHead n.text = n.text) : ∃ ts dot,
      Script.Operand (n.inHead n.text) ts dot ∧ Run false ts ∧
        ("in" ∈ Script.bareWords ts ↔ n.baresInHead = true) := by
    have htells := h.tellsIn hn
    obtain ⟨ts, hts⟩ := htells.isFragment
    rw [hbares, hhead, ← htells.bareIn]
    exact ⟨ts, _, hts.toOperand, hts.run, (Script.bareIn_iff hts.lexes).symm⟩
  have hlayer := h
  cases hlayer with
  | @mk _ form span hk hspelled hparts =>
    cases form with
    | definitions kind bs hoisted =>
      rw [inHead_definitions]
      refine exists_head_definitions hspelled fun b hb v hv => ?_
      have hpart : (Category.expression, v) ∈ (Form.definitions kind bs hoisted).parts := by
        simp only [Form.parts, List.mem_map, List.mem_filterMap]
        exact ⟨v, ⟨b, hb, hv⟩, rfl⟩
      have hprintable := hparts _ _ hpart
      exact hprintable.tellsIn (hprintable.isStatement (.inl rfl))
    | binary op l r =>
      cases op with
      | inside =>
        obtain ⟨ts, hts⟩ := (h.tellsIn rfl).isFragment
        refine ⟨_, _, hts.parenthesized.toOperand, hts.parenthesized.run, ?_⟩
        rw [Script.bareWords_bracketed hts.run.within rfl]
        exact iff_of_false List.not_mem_nil Bool.false_ne_true
      | _ => exact hexpression rfl rfl rfl
    | _ => first | cases hk; done | exact hexpression rfl rfl rfl

/-- The text of a `for` goes on after what the loop starts with by a semicolon. -/
theorem scan_forLoop (init : Option Node) {condition step : Option Node} {body : Node}
    {is : List Token}
    (hi : Script.Content (init.elim [] fun n => n.inHead n.text) is)
    (hc : ∀ n ∈ condition, n.IsFragment) (hs : ∀ n ∈ step, n.IsFragment) (hbody : body.Nested) :
    ∃ us, Script.scan (⟨.forLoop init condition step body, span⟩ : Node).print.toList =
      some (.word "for" :: .mark "(" :: (is ++ .mark ";" :: us)) := by
  obtain ⟨cs, hhead⟩ := content_after_init hi hc hs
  obtain ⟨us, hus, -⟩ := hbody
  have hlexes := (hhead.under (w := "for") (by decide)).before_any hus
  refine ⟨cs ++ .mark ")" :: us, ?_⟩
  rw [print, String.toList_ofList, text_forLoop, forHead, hlexes.scan_eq]
  simp [Script.bracketed]

/-- In the text of a `for`, before the semicolon that ends what the loop starts with, an `in` stands
bare if and only if the loop starts with an expression or a declaration that shows one: parentheses
stand around an `in` that is all of it, and around what binds less tightly than its place asks. -/
theorem print_forLoop_bareIn_iff {init condition step : Option Node} {body : Node}
    (h : (⟨.forLoop init condition step body, span⟩ : Node).Printable .statement) :
    ∃ ts us, Script.scan (⟨.forLoop init condition step body, span⟩ : Node).print.toList =
        some (.word "for" :: .mark "(" :: (ts ++ .mark ";" :: us)) ∧
      Script.scan (init.elim [] fun n => n.inHead n.text) = some ts ∧ Run false ts ∧
      ("in" ∈ Script.bareWords ts ↔ ∃ n ∈ init, n.baresInHead = true) := by
  cases h with
  | mk _ _ hparts =>
    have hcondition : ∀ n ∈ condition, n.IsFragment :=
      fun n hn => (hparts .condition n (by simp_all [Form.parts])).reads.1
    have hstep : ∀ n ∈ step, n.IsFragment :=
      fun n hn => (hparts .expression n (by simp_all [Form.parts])).reads.1
    have hbody : body.Nested := (hparts .statement body (by simp [Form.parts])).reads
    cases init with
    | none =>
      obtain ⟨us, hscan⟩ := scan_forLoop none .empty hcondition hstep hbody
      refine ⟨[], us, hscan, Script.scan_nil, .nil, ?_⟩
      simp [Script.bareWords, Script.bareWordsFrom]
    | some n =>
      obtain ⟨ts, dot, hts, hrun, hbare⟩ := (hparts .head n (by simp [Form.parts])).exists_head
      obtain ⟨us, hscan⟩ := scan_forLoop (some n) (.of_operand hts hrun.within) hcondition
        hstep hbody
      refine ⟨ts, us, hscan, hts.lexes.scan_eq, hrun, ?_⟩
      simpa using hbare

theorem Printable.of_parts {k : Category} (hk : k.holds form = true) (hspelled : form.Spelled)
    (h : ∀ p ∈ form.parts, p.2.Printable p.1) : (⟨form, span⟩ : Node).Printable k :=
  .mk hk hspelled fun j a ha => h (j, a) ha

theorem printable_identifier {k : Category} {name : String} (h : Text.isIdentifier name = true)
    (hk : k.holds (Form.identifier name : Form Node) = true) :
    (Build.identifier name).Printable k :=
  .mk hk h nofun

theorem printable_empty : Build.empty.Printable .statement :=
  .mk rfl trivial nofun

/-- Of `for(var x=!(a in b),y=[c in d];;);` no `in` stands bare. -/
theorem print_forLoop_bracketed_in :
    let name (x : String) := Build.identifier x
    let init := Build.var [("x", some (Build.not (Build.binary .inside (name "a") (name "b")))),
      ("y", some (Form.array [Build.binary .inside (name "c") (name "d")]).node)]
    let n := (Form.forLoop (some init) none none Build.empty).node
    n.Printable .statement ∧ n.print = "for(var x=!(a in b),y=[c in d];;);" ∧
      ∃ ts us, Script.scan n.print.toList =
          some (.word "for" :: .mark "(" :: (ts ++ .mark ";" :: us)) ∧
        Script.scan (init.inHead init.text) = some ts ∧ Run false ts ∧
        "in" ∉ Script.bareWords ts := by
  intro name init n
  have hinside (x y : String) (hx : Text.isIdentifier x = true) (hy : Text.isIdentifier y = true) :
      (Build.binary .inside (name x) (name y)).Printable .expression :=
    .of_parts rfl trivial
      (by simpa [Form.parts] using ⟨printable_identifier hx rfl, printable_identifier hy rfl⟩)
  have hnot : (Build.not (Build.binary .inside (name "a") (name "b"))).Printable .expression :=
    .of_parts rfl trivial (by
      simpa [Form.parts, UnaryOperator.operandCategory] using
        hinside "a" "b" (by decide) (by decide))
  have harray : (Form.array [Build.binary .inside (name "c") (name "d")]).node.Printable
      .expression :=
    .of_parts rfl trivial (by simpa [Form.parts] using hinside "c" "d" (by decide) (by decide))
  have hnames : init.form.Spelled := by
    change ∀ b ∈ (_ : List (Binding Node)), Text.isIdentifier b.name = true
    decide
  have hinit : init.Printable .head :=
    .of_parts rfl hnames (by simpa [Form.parts] using ⟨hnot, harray⟩)
  have hn : n.Printable .statement :=
    .of_parts rfl trivial (by simpa [Form.parts] using ⟨hinit, printable_empty⟩)
  obtain ⟨ts, us, hscan, hhead, hrun, hbare⟩ := print_forLoop_bareIn_iff hn
  refine ⟨hn, by decide +kernel, ts, us, hscan, hhead, hrun, ?_⟩
  rw [hbare]
  decide

/-- An `in` that is assigned stands bare: `for(x=a in b;;);` goes on like a `for ... in`. -/
theorem print_forLoop_assigned_in :
    let init := Build.assign (Build.identifier "x")
      (Build.binary .inside (Build.identifier "a") (Build.identifier "b"))
    let n := (Form.forLoop (some init) none none Build.empty).node
    let ts : List Token := [.word "x", .mark "=", .word "a", .word "in", .word "b"]
    n.Printable .statement ∧ n.print = "for(x=a in b;;);" ∧
      (∃ us, Script.scan n.print.toList =
        some (.word "for" :: .mark "(" :: (ts ++ .mark ";" :: us))) ∧
      Script.scan (init.inHead init.text) = some ts ∧ Run false ts ∧
      "in" ∈ Script.bareWords ts := by
  intro init n ts
  have hinside : (Build.binary .inside (Build.identifier "a") (Build.identifier "b")).Printable
      .expression :=
    .of_parts rfl trivial (by
      simpa [Form.parts] using
        ⟨printable_identifier (by decide) rfl, printable_identifier (by decide) rfl⟩)
  have hinit : init.Printable .head :=
    .of_parts rfl trivial (by
      simpa [Form.parts] using ⟨printable_identifier (by decide) rfl, hinside⟩)
  have hn : n.Printable .statement :=
    .of_parts rfl trivial (by simpa [Form.parts] using ⟨hinit, printable_empty⟩)
  have hx : Fragment "x".toList [.word "x"] true := .identifier (by decide) true
  have ha : Fragment "a".toList [.word "a"] true := .identifier (by decide) true
  have hb : Fragment "b".toList [.word "b"] true := .identifier (by decide) true
  have hhead : Fragment (init.inHead init.text) ts true :=
    hx.assign (ha.join_binary hb .inside) .assign
  have hnone : ∀ m ∈ (none : Option Node), m.IsFragment := by simp
  have hbody : Build.empty.Nested := .empty
  have hcontent : Script.Content ((some init).elim [] fun m => m.inHead m.text) ts :=
    .of_operand hhead.toOperand hhead.run.within
  exact ⟨hn, by decide +kernel, scan_forLoop (some init) hcontent hnone hnone hbody,
    hhead.lexes.scan_eq, hhead.run, by decide⟩

end Node

end ScriptMinifier
