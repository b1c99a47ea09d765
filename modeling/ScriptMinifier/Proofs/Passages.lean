import ScriptMinifier.Proofs.Fragments
import ScriptMinifier.Proofs.ReadBack

namespace ScriptMinifier

open Script (Fragment Lexes Operand Run Token)

/-- Names are names of the language. -/
def Lambda.Spelled {α : Type} (l : Lambda α) : Prop :=
  (∀ name ∈ l.name, Text.isIdentifier name = true) ∧ ∀ p ∈ l.params, Text.isIdentifier p = true

/-- The names of a form are identifiers, or names after a point, where these are asked for. -/
def Form.Spelled {α : Type} : Form α → Prop
  | identifier name | labeled ⟨name, _⟩ _ | jump _ (some name) | catch_ name _ =>
    Text.isIdentifier name = true
  | member _ name => Text.isName name = true
  | update op _ => op = .increment ∨ op = .decrement
  | definitions _ bs _ => ∀ b ∈ bs, Text.isIdentifier b.name = true
  | declaration l => l.name.isSome = true ∧ l.Spelled
  | function l => l.Spelled
  | _ => True

namespace Text

variable {name : String}

theorem isName_of_isIdentifier (h : isIdentifier name = true) : isName name = true :=
  (Bool.and_eq_true_iff.1 h).1

theorem not_mem_keywords (h : isIdentifier name = true) : name ∉ Script.keywords := by
  have hall : ∀ w ∈ Script.keywords, reservedWords.contains w = true := by decide
  intro hmem
  have hreserved := (Bool.and_eq_true_iff.1 h).2
  rw [hall name hmem] at hreserved
  cases hreserved

theorem not_mem_structural (h : isIdentifier name = true) : name ∉ Script.structural := by
  have hall : ∀ w ∈ Script.structural, w ∈ Script.keywords := by decide
  exact fun hmem => not_mem_keywords h (hall name hmem)

theorem ne_function (h : isIdentifier name = true) : name ≠ "function" := by
  rintro rfl
  exact not_mem_keywords h (by decide)

end Text

theorem Script.Fragment.identifier {name : String} (h : Text.isIdentifier name = true)
    (dot : Bool) : Fragment name.toList [.word name] dot :=
  .word (Text.isName_of_isIdentifier h) (Text.not_mem_structural h) (Text.ne_function h) dot

namespace Node

/-- The text of an expression is a fragment. -/
def IsFragment (n : Node) : Prop := ∃ ts, Fragment n.text ts n.takesDot

/-- The text of a list of statements is read as tokens with matching brackets. -/
def IsEnclosable (body : List Node) : Prop :=
  ∃ ts, Lexes (statements body) ts (fun _ => True) ∧ Run true ts

variable {n l r c : Node} {span : Span} {q : Nat} {ns : List Node}

namespace IsFragment

theorem enclosed (h : n.IsFragment) (q : Nat) : ∃ ts, Fragment (n.enclosed q n.text) ts false := by
  obtain ⟨ts, hts⟩ := h
  rw [Node.enclosed]
  split
  · exact ⟨_, hts.parenthesized.undotted⟩
  · exact ⟨_, hts.undotted⟩

/-- Only after a number no point may follow. -/
theorem chain (h : n.IsFragment) :
    ∃ ts, Fragment (n.enclosed Precedence.call n.text) ts (!n.isNumber) := by
  obtain ⟨ts, hts⟩ := h
  rw [Node.enclosed]
  split
  · cases n.isNumber with
    | true => exact ⟨_, hts.parenthesized.undotted⟩
    | false => exact ⟨_, hts.parenthesized⟩
  · rename_i hle
    rw [takesDot, decide_eq_true (Nat.le_of_not_lt hle)] at hts
    exact ⟨ts, hts⟩

theorem subject (h : n.IsFragment) : ∃ ts, Fragment (if n.isNumber then parenthesized n.text
    else n.enclosed Precedence.call n.text) ts true := by
  split
  · obtain ⟨ts, hts⟩ := h
    exact ⟨_, hts.parenthesized⟩
  · rename_i hnumber
    have hchain := h.chain
    rw [eq_false_of_ne_true hnumber] at hchain
    exact hchain

theorem constructor (h : n.IsFragment) : ∃ ts, Fragment (if n.callInside then parenthesized n.text
    else n.enclosed Precedence.call n.text) ts false := by
  split
  · obtain ⟨ts, hts⟩ := h
    exact ⟨_, hts.parenthesized.undotted⟩
  · exact h.enclosed _

theorem items (h : ∀ n ∈ ns, n.IsFragment) : ∃ tokens : Node → List Token,
    ∀ n ∈ ns, Fragment (n.enclosed Precedence.assign n.text) (tokens n) false := by
  have hall := fun n hn => (h n hn).enclosed Precedence.assign
  choose! tokens htokens using hall
  exact ⟨tokens, htokens⟩

theorem of_fragment {t : List Char} {ts : List Token} {dot : Bool} (h : Fragment t ts dot)
    (htext : n.text = t) (hdot : n.takesDot = dot) : n.IsFragment :=
  ⟨ts, by rw [htext, hdot]; exact h⟩

theorem word {form : Form Node} {w : String} (hname : Text.isName w = true)
    (hw : w ∉ Script.structural) (hfunction : w ≠ "function")
    (htext : (⟨form, span⟩ : Node).text = w.toList) : (⟨form, span⟩ : Node).IsFragment :=
  of_fragment (.word hname hw hfunction (⟨form, span⟩ : Node).takesDot) htext rfl

theorem identifier {name : String} (h : Text.isIdentifier name = true) :
    (⟨.identifier name, span⟩ : Node).IsFragment :=
  of_fragment (.identifier h true) rfl rfl

theorem boolean {b : Bool} : (⟨.boolean b, span⟩ : Node).IsFragment := by
  cases b with
  | true => exact .word (w := "true") (by decide) (by decide) (by decide) rfl
  | false => exact .word (w := "false") (by decide) (by decide) (by decide) rfl

theorem undefined : (⟨.undefined, span⟩ : Node).IsFragment :=
  of_fragment ((Fragment.digits 0).join_unary .void) rfl rfl

theorem number {x : Float} : (⟨.number x, span⟩ : Node).IsFragment := by
  obtain ⟨ts, hts, -⟩ := Fragment.sourceText x
  exact of_fragment hts rfl (Bool.and_false _)

theorem unary {op : UnaryOperator} (h : n.IsFragment) :
    (⟨.unary op n, span⟩ : Node).IsFragment := by
  obtain ⟨ts, hts⟩ := h.enclosed Precedence.unary
  exact of_fragment (hts.join_unary op) rfl rfl

theorem update {op : UnaryOperator} (h : n.IsFragment) (hop : op = .increment ∨ op = .decrement) :
    (⟨.update op n, span⟩ : Node).IsFragment := by
  obtain ⟨ts, hts⟩ := h.enclosed Precedence.call
  exact of_fragment (hts.update hop).undotted rfl rfl

theorem binary {op : BinaryOperator} (hl : l.IsFragment) (hr : r.IsFragment) :
    (⟨.binary op l r, span⟩ : Node).IsFragment := by
  obtain ⟨ts, hts⟩ := hl.enclosed op.precedence
  obtain ⟨us, hus⟩ := hr.enclosed (op.precedence + 1)
  exact of_fragment (hts.join_binary hus op) rfl (by cases op <;> rfl)

theorem assign {op : AssignOperator} (hl : l.IsFragment) (hr : r.IsFragment) :
    (⟨.assign op l r, span⟩ : Node).IsFragment := by
  obtain ⟨ts, hts⟩ := hl.enclosed Precedence.call
  obtain ⟨us, hus⟩ := hr.enclosed Precedence.assign
  exact of_fragment (hts.assign hus op) rfl rfl

theorem conditional (hc : c.IsFragment) (hl : l.IsFragment) (hr : r.IsFragment) :
    (⟨.conditional c l r, span⟩ : Node).IsFragment := by
  obtain ⟨ts, hts⟩ := hc.enclosed Precedence.or
  obtain ⟨us, hus⟩ := hl.enclosed Precedence.assign
  obtain ⟨vs, hvs⟩ := hr.enclosed Precedence.assign
  exact of_fragment (hts.choice hus hvs) rfl rfl

theorem sequence (hl : l.IsFragment) (hr : r.IsFragment) :
    (⟨.sequence l r, span⟩ : Node).IsFragment := by
  obtain ⟨ts, hts⟩ := hl
  obtain ⟨us, hus⟩ := hr
  exact of_fragment (hts.sequence hus).undotted rfl rfl

theorem member {name : String} (h : n.IsFragment) (hname : Text.isName name = true) :
    (⟨.member n name, span⟩ : Node).IsFragment := by
  obtain ⟨ts, hts⟩ := h.subject
  exact of_fragment (hts.member hname) rfl rfl

theorem index (hl : l.IsFragment) (hr : r.IsFragment) :
    (⟨.index l r, span⟩ : Node).IsFragment := by
  obtain ⟨ts, hts⟩ := hl.enclosed Precedence.call
  obtain ⟨us, hus⟩ := hr
  exact of_fragment (hts.index hus) rfl rfl

theorem array (h : ∀ n ∈ ns, n.IsFragment) : (⟨.array ns, span⟩ : Node).IsFragment := by
  obtain ⟨tokens, htokens⟩ := items h
  have harray := Fragment.array htokens
  rw [← items_eq] at harray
  exact of_fragment harray rfl rfl

theorem call (hl : l.IsFragment) (h : ∀ n ∈ ns, n.IsFragment) :
    (⟨.call l ns, span⟩ : Node).IsFragment := by
  obtain ⟨ts, hts⟩ := hl.enclosed Precedence.call
  obtain ⟨tokens, htokens⟩ := items h
  have hcall := hts.applied htokens
  rw [← items_eq] at hcall
  exact of_fragment hcall rfl rfl

theorem construct (hl : l.IsFragment) (h : ∀ n ∈ ns, n.IsFragment) :
    (⟨.construct l ns, span⟩ : Node).IsFragment := by
  obtain ⟨ts, hts⟩ := hl.constructor
  obtain ⟨tokens, htokens⟩ := items h
  have hconstruct := hts.construct htokens
  rw [← items_eq] at hconstruct
  exact of_fragment hconstruct rfl rfl

end IsFragment

/-- The braces of a function hold what can be read, and its names are names. -/
def IsOpened (n : Node) : Prop := ∀ l, n.form = .function l → l.Spelled ∧ IsEnclosable l.body

theorem IsFragment.function {l : Lambda Node} (h : l.Spelled) (hbody : IsEnclosable l.body) :
    (⟨.function l, span⟩ : Node).IsFragment := by
  obtain ⟨name, params, body, usesArguments, hoisted⟩ := l
  obtain ⟨hname, hparams⟩ := h
  obtain ⟨ts, hlexes, hrun⟩ := hbody
  have hlambda := Fragment.lambda
    (fun n hn => ⟨Text.isName_of_isIdentifier (hname n hn), Text.not_mem_structural (hname n hn)⟩)
    (fun p hp => Text.isName_of_isIdentifier (hparams p hp)) hlexes hrun
  exact .of_fragment hlambda rfl rfl

/-- A property, which a getter or a setter is spelled as only if its value is a function. -/
theorem propertyTexts_cons {p : Property Node} (ps : List (Property Node))
    (h : p.value.IsFragment) (hopened : p.value.IsOpened) : ∃ t ts,
      propertyTexts (p :: ps) = t :: propertyTexts ps ∧ Operand t ts false ∧ Run true ts := by
  obtain ⟨kind, key, ⟨form, valueSpan⟩, span⟩ := p
  obtain ⟨k, hkey, hk⟩ := Script.operand_propertyKey key
  obtain ⟨us, hus⟩ := h.enclosed Precedence.assign
  have hvalue := hkey.steady hus.toOperand (m := ":") (by decide)
  have hrun : Run true (k :: .mark ":" :: us) := .pass hk (.pass rfl hus.run.within)
  have haccessor {l : Lambda Node} (hform : form = .function l) {w : String}
      (hw : Text.isName w = true) : ∃ ts, Operand (w.toList ++ ' ' :: (propertyKey key ++
        (parameters l.params ++ braced (statements l.body)))) ts false ∧ Run true ts := by
    obtain ⟨⟨-, hparams⟩, vs, hbody, hbodyRun⟩ := hopened l hform
    refine ⟨_, Script.operand_accessor hw hkey
      (fun p hp => Text.isName_of_isIdentifier (hparams p hp)) hbody, ?_⟩
    have hnames : Run true (Script.separated (l.params.map fun p => [Token.word p])) :=
      .separated (List.forall_mem_map.2 fun _ _ => .token rfl)
    exact .pass rfl (.pass hk ((hnames.bracketed rfl).append (hbodyRun.bracketed rfl)))
  cases kind with
  | value => exact ⟨_, _, rfl, hvalue, hrun⟩
  | getter =>
    cases form with
    | function l =>
      obtain ⟨ts, hts, hrun⟩ := haccessor rfl (w := "get") (by decide)
      refine ⟨_, ts, ?_, hts, hrun⟩
      simp [propertyTexts]
    | _ => exact ⟨_, _, rfl, hvalue, hrun⟩
  | setter =>
    cases form with
    | function l =>
      obtain ⟨ts, hts, hrun⟩ := haccessor rfl (w := "set") (by decide)
      refine ⟨_, ts, ?_, hts, hrun⟩
      simp [propertyTexts]
    | _ => exact ⟨_, _, rfl, hvalue, hrun⟩

/-- What is printed one after the other, with the tokens of each. -/
theorem exists_items {α : Type} {f : List α → List (List Char)}
    {P : List Char → List Token → Prop} {as : List α} (hnil : f [] = [])
    (hcons : ∀ a ∈ as, ∀ bs, ∃ t ts, f (a :: bs) = t :: f bs ∧ P t ts) :
    ∃ items : List (List Char × List Token), f as = items.map Prod.fst ∧
      ∀ i ∈ items, P i.1 i.2 := by
  induction as with
  | nil => exact ⟨[], hnil, nofun⟩
  | cons a as ih =>
    obtain ⟨items, hitems, hall⟩ := ih fun b hb => hcons b (List.mem_cons_of_mem a hb)
    obtain ⟨t, ts, htexts, hitem⟩ := hcons a List.mem_cons_self as
    exact ⟨(t, ts) :: items, by rw [htexts, hitems, List.map_cons],
      List.forall_mem_cons.2 ⟨hitem, hall⟩⟩

/-- The braces of an object literal hold a run. -/
theorem fragment_object {ps : List (Property Node)}
    (h : ∀ p ∈ ps, p.value.IsFragment ∧ p.value.IsOpened) :
    ∃ ts, Fragment (⟨.object ps, span⟩ : Node).text (Script.bracketed "\x7b" ts "\x7d") true ∧
      Run true ts := by
  obtain ⟨items, hitems, hall⟩ := exists_items (f := propertyTexts) rfl fun p hp ps =>
    propertyTexts_cons ps (h p hp).1 (h p hp).2
  have hobject := Fragment.object (fun i hi => (hall i hi).1) fun i hi => (hall i hi).2
  rw [← hitems] at hobject
  exact ⟨_, hobject, .separated (List.forall_mem_map.2 fun i hi => (hall i hi).2)⟩

theorem IsFragment.object {ps : List (Property Node)}
    (h : ∀ p ∈ ps, p.value.IsFragment ∧ p.value.IsOpened) :
    (⟨.object ps, span⟩ : Node).IsFragment := by
  obtain ⟨ts, hts, -⟩ := fragment_object h
  exact .of_fragment hts rfl rfl

/-- One layer of syntax. -/
theorem isFragment_layer {form : Form Node} (hform : form.isStatement = false)
    (hscope : form.opensScope = false) (hspelled : form.Spelled)
    (h : ∀ c ∈ form.children, c.IsFragment ∧ c.IsOpened) : (⟨form, span⟩ : Node).IsFragment := by
  have hc (c : Node) (hc : c ∈ form.children) : c.IsFragment := (h c hc).1
  cases form with
  | identifier name => exact .identifier hspelled
  | string s => exact .of_fragment (.quote s true) rfl rfl
  | number x => exact .number
  | boolean b => exact .boolean
  | null => exact .word (w := "null") (by decide) (by decide) (by decide) rfl
  | this => exact .word (w := "this") (by decide) (by decide) (by decide) rfl
  | undefined => exact .undefined
  | function l => cases hscope
  | unary op x => exact .unary (hc x (by simp [Form.children]))
  | update op x => exact .update (hc x (by simp [Form.children])) hspelled
  | binary op l r => exact .binary (hc l (by simp [Form.children])) (hc r (by simp [Form.children]))
  | assign op l r => exact .assign (hc l (by simp [Form.children])) (hc r (by simp [Form.children]))
  | conditional c a b =>
    exact .conditional (hc c (by simp [Form.children])) (hc a (by simp [Form.children]))
      (hc b (by simp [Form.children]))
  | sequence a b => exact .sequence (hc a (by simp [Form.children])) (hc b (by simp [Form.children]))
  | call e args =>
    exact .call (hc e List.mem_cons_self) fun a ha => hc a (List.mem_cons_of_mem e ha)
  | construct e args =>
    exact .construct (hc e List.mem_cons_self) fun a ha => hc a (List.mem_cons_of_mem e ha)
  | member e name => exact .member (hc e (by simp [Form.children])) hspelled
  | index e p => exact .index (hc e (by simp [Form.children])) (hc p (by simp [Form.children]))
  | array es => exact .array hc
  | object ps => exact .object fun p hp => h p.value (List.mem_map_of_mem hp)
  | _ => cases hform

end Node

end ScriptMinifier
