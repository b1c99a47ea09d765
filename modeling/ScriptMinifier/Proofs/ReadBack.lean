import ScriptMinifier.Proofs.Phrases
import ScriptMinifier.Proofs.Rules
import ScriptMinifier.Proofs.Unambiguous
import ScriptMinifier.Proofs.WholeNumbers

namespace ScriptMinifier

open Script (Phrase Symbol)

namespace Node

/-- The sequence of all that both evaluate, nested to the left if both are. -/
def followedBy (first : Node) : Node → Node
  | ⟨.sequence a b, _⟩ => Build.sequence (first.followedBy a) b
  | n => Build.sequence first n

end Node

/-- A form whose children are nested to the left, as such a tree. -/
def Form.nested : Form Node → Node
  | sequence a b => a.followedBy b
  | form => form.node

namespace Node

/-- The tree with all its sequences nested to the left, and without places. -/
def leftNested (n : Node) : Node := (n.form.attach.map fun c => leftNested c.1).nested
termination_by n
decreasing_by exact sizeOf_lt_of_mem c.2

theorem leftNested_eq (n : Node) : n.leftNested = (n.form.map leftNested).nested := by
  have h := Form.map_map leftNested Subtype.val n.form.attach
  rw [Form.attach_map_val] at h
  rw [leftNested, h]

theorem followedBy_assoc (a b c : Node) :
    a.followedBy (b.followedBy c) = (a.followedBy b).followedBy c := by
  induction c using Node.induct with
  | h c ih =>
    obtain ⟨form, span⟩ := c
    cases form with
    | sequence c d =>
      change Build.sequence (a.followedBy (b.followedBy c)) d =
        Build.sequence ((a.followedBy b).followedBy c) d
      rw [ih c (by simp [children, Form.children])]
    | _ => rfl

variable {n l r : Node} {span : Span} {q : Nat}

/-- The symbol of an expression that properties and arguments are appended to as it is. -/
def chain (n : Node) : Symbol := if n.callInside then .call else .member

def symbol (n : Node) : Symbol :=
  if n.precedence < Precedence.call then .binding n.precedence else n.chain

/-- Whether a point may follow the text; after a number it would be taken for its own. -/
def takesDot (n : Node) : Bool := decide (Precedence.call ≤ n.precedence) && !n.isNumber

/-- The text is read as the tree, nested to the left. -/
def Legible (n : Node) : Prop := Phrase n.symbol n.text n.leftNested n.takesDot

/-- Only sequences bind looser than an assignment. -/
theorem assign_le_precedence (n : Node) :
    (∃ a b, n.form = .sequence a b) ∨ Precedence.assign ≤ n.precedence := by
  obtain ⟨form, span⟩ := n
  cases form with
  | sequence a b => exact .inl ⟨a, b, rfl⟩
  | binary op l r => exact .inr (by cases op <;> exact Nat.le_of_ble_eq_true rfl)
  | number x =>
    simp only [precedence, form_mk]
    split
    · exact .inr (by decide)
    · exact .inr (by decide)
    · exact .inr (by split <;> decide)
  | _ => exact .inr (Nat.le_of_ble_eq_true rfl)

theorem sequence_le_precedence (n : Node) : Precedence.sequence ≤ n.precedence := by
  obtain ⟨a, b, h⟩ | h := n.assign_le_precedence
  · rw [precedence, h]
  · exact Nat.le_of_succ_le h

theorem items_eq (ns : List Node) :
    items ns = ns.map fun n => n.enclosed Precedence.assign n.text := by
  induction ns with
  | nil => rfl
  | cons n ns ih => rw [items, ih, List.map_cons]

theorem isChain_chain (n : Node) : n.chain.IsChain := by
  rw [chain]
  split
  · exact .inr rfl
  · exact .inl rfl

theorem chain_of_precedence (h : n.precedence < Precedence.call) : n.chain = .member := by
  obtain ⟨form, span⟩ := n
  cases form with
  | call | member | index => exact absurd h (Nat.lt_irrefl _)
  | _ => rfl

end Node

namespace Script.Phrase

variable {t : List Char} {e : Node} {s : Symbol} {dot : Bool}

theorem leftHandSide (h : Phrase s t e dot) (hs : s.IsChain) :
    Phrase (.binding Precedence.call) t e dot := by
  rcases hs with rfl | rfl
  · have hbare : Phrase .construction t e dot := h.unit (by decide)
    exact hbare.unit (by decide)
  · exact h.unit (by decide)

end Script.Phrase

namespace Node.Legible

variable {n l r : Node} {span : Span} {q : Nat}

theorem binding (h : n.Legible) (hq : Precedence.sequence ≤ q) (hqn : q ≤ n.precedence)
    (hcall : q ≤ Precedence.call) : Phrase (.binding q) n.text n.leftNested false := by
  rw [Legible, symbol] at h
  split at h
  · rename_i hlt
    exact (h.loosen hq hqn (Nat.le_of_lt hlt)).undotted
  · exact ((h.leftHandSide n.isChain_chain).loosen hq hcall (Nat.le_refl _)).undotted

theorem expression (h : n.Legible) : Phrase .expression n.text n.leftNested false :=
  h.binding (Nat.le_refl _) n.sequence_le_precedence (by decide)

theorem parenthesized (h : n.Legible) :
    Phrase .member (ScriptMinifier.parenthesized n.text) n.leftNested true :=
  h.expression.parenthesized.unit (by decide)

/-- Where an operand is asked for that binds at least so tightly. -/
theorem enclosed (h : n.Legible) (hq : Precedence.sequence ≤ q) (hcall : q ≤ Precedence.call) :
    Phrase (.binding q) (n.enclosed q n.text) n.leftNested false := by
  rw [Node.enclosed]
  split
  · have hcall' := h.parenthesized.leftHandSide (.inl rfl)
    exact (hcall'.loosen hq hcall (Nat.le_refl _)).undotted
  · rename_i hle
    exact h.binding hq (Nat.le_of_not_lt hle) hcall

/-- Where properties and arguments are appended. -/
theorem chain (h : n.Legible) :
    Phrase n.chain (n.enclosed Precedence.call n.text) n.leftNested (!n.isNumber) := by
  rw [Node.enclosed]
  split
  · rename_i hlt
    rw [chain_of_precedence hlt]
    cases n.isNumber with
    | true => exact h.parenthesized.undotted
    | false => exact h.parenthesized
  · rename_i hle
    rw [Legible, symbol, if_neg hle, takesDot, decide_eq_true (Nat.le_of_not_lt hle)] at h
    exact h

/-- The subject of a property: a number is always put in parentheses. -/
theorem subject (h : n.Legible) : Phrase n.chain
    (if n.isNumber then ScriptMinifier.parenthesized n.text else n.enclosed Precedence.call n.text)
    n.leftNested true := by
  split
  · rename_i hnumber
    have hchain : n.chain = .member := by
      obtain ⟨form, span⟩ := n
      cases form with
      | number => rfl
      | _ => cases hnumber
    rw [hchain]
    exact h.parenthesized
  · rename_i hnumber
    have hsubject := h.chain
    rw [eq_false_of_ne_true hnumber] at hsubject
    exact hsubject

/-- A constructor with a call along its chain is always put in parentheses. -/
theorem constructor (h : n.Legible) : Phrase .member
    (if n.callInside then ScriptMinifier.parenthesized n.text else n.enclosed Precedence.call n.text)
    n.leftNested false := by
  split
  · exact h.parenthesized.undotted
  · rename_i hcall
    have hchain := h.chain
    rw [Node.chain, if_neg hcall] at hchain
    exact hchain.undotted

theorem of_phrase {s : Symbol} {t : List Char} {e : Node} {dot : Bool} (h : Phrase s t e dot)
    (hsymbol : n.symbol = s) (htext : n.text = t) (htree : (n.form.map leftNested).nested = e)
    (hdot : n.takesDot = dot) : n.Legible := by
  rw [Legible, hsymbol, htext, leftNested_eq, htree, hdot]
  exact h

theorem identifier {name : String} (h : Text.isIdentifier name = true) :
    (⟨.identifier name, span⟩ : Node).Legible := by
  obtain ⟨hname, hreserved⟩ := Bool.and_eq_true_iff.1 h
  have hkeyword : name ∉ Script.keywords := by
    have hall : ∀ w ∈ Script.keywords, w ∈ Text.reservedWords := by decide
    intro hmem
    simp [hall name hmem] at hreserved
  have hprimary := Phrase.word hname (.identifier hname hkeyword)
  exact of_phrase (hprimary.unit (s := .member) (by decide)) rfl rfl rfl rfl

theorem string {s : String} : (⟨.string s, span⟩ : Node).Legible :=
  of_phrase ((Phrase.quote s).unit (s := .member) (by decide)) rfl rfl rfl rfl

theorem number {x : Float} {k : Nat} (hk : k < 2 ^ 53) (hx : x = .ofNat k) :
    (⟨.number x, span⟩ : Node).Legible := by
  obtain ⟨m, e, hexact⟩ := Number.ofFloat_ofNat hk
  have hprecedence : (⟨.number x, span⟩ : Node).precedence = Precedence.primary := by
    simp [precedence, hx, hexact]
  have hdigits := (Phrase.digits k).unit (s := .member) (by decide)
  rw [← Number.sourceText_ofNat hk, ← hx] at hdigits
  refine of_phrase hdigits ?_ rfl rfl ?_
  · rw [symbol, hprecedence]
    rfl
  · rw [takesDot, hprecedence]
    rfl

theorem constant {form : Form Node} (w : String) (h : (.word w, form.node) ∈ Script.constants) :
    (⟨form, span⟩ : Node).Legible := by
  have hprimary (hw : Text.isName w = true) : Phrase .member w.toList form.node true :=
    (Phrase.word hw (.constant h)).unit (by decide)
  simp only [Script.constants, List.mem_cons, List.not_mem_nil, or_false, Prod.mk.injEq,
    Script.Token.word.injEq] at h
  obtain ⟨rfl, h⟩ | ⟨rfl, h⟩ | ⟨rfl, h⟩ | ⟨rfl, h⟩ := h
  all_goals
    obtain rfl := congrArg Node.form h
    exact of_phrase (hprimary (by decide)) rfl rfl rfl rfl

theorem unary {op : UnaryOperator} (h : n.Legible) : (⟨.unary op n, span⟩ : Node).Legible := by
  have hoperand := h.enclosed (q := Precedence.unary) (by decide) (by decide)
  exact of_phrase (Phrase.unary hoperand op) rfl rfl rfl rfl

theorem update {op : UnaryOperator} (h : n.Legible) (hop : op = .increment ∨ op = .decrement) :
    (⟨.update op n, span⟩ : Node).Legible := by
  have hoperand := h.enclosed (q := Precedence.call) (by decide) (by decide)
  exact of_phrase (Phrase.update hoperand hop).undotted rfl rfl rfl rfl

theorem binary {op : BinaryOperator} (hl : l.Legible) (hr : r.Legible) :
    (⟨.binary op l r, span⟩ : Node).Legible := by
  have hop : Precedence.sequence ≤ op.precedence ∧ op.precedence < Precedence.unary := by
    cases op <;> decide
  have hcall : op.precedence < Precedence.call := Nat.lt_trans hop.2 (by decide)
  have hleft := hl.enclosed hop.1 (Nat.le_of_lt hcall)
  have hright := hr.enclosed (Nat.le_succ_of_le hop.1) hcall
  exact of_phrase (Phrase.binary hleft hright) (if_pos hcall) rfl rfl (by cases op <;> rfl)

theorem assign {op : AssignOperator} (hl : l.Legible) (hr : r.Legible) :
    (⟨.assign op l r, span⟩ : Node).Legible := by
  have htarget := hl.enclosed (q := Precedence.call) (by decide) (by decide)
  have hvalue := hr.enclosed (q := Precedence.assign) (by decide) (by decide)
  exact of_phrase (Phrase.assign htarget hvalue) rfl rfl rfl rfl

theorem conditional {c : Node} (hc : c.Legible) (hl : l.Legible) (hr : r.Legible) :
    (⟨.conditional c l r, span⟩ : Node).Legible := by
  have hcondition := hc.enclosed (q := Precedence.or) (by decide) (by decide)
  have hconsequent := hl.enclosed (q := Precedence.assign) (by decide) (by decide)
  have halternative := hr.enclosed (q := Precedence.assign) (by decide) (by decide)
  exact of_phrase (Phrase.conditional hcondition hconsequent halternative) rfl rfl rfl rfl

theorem member {name : String} (h : n.Legible) (hname : Text.isName name = true) :
    (⟨.member n name, span⟩ : Node).Legible :=
  of_phrase (h.subject.member n.isChain_chain hname) rfl rfl rfl rfl

theorem index (hl : l.Legible) (hr : r.Legible) : (⟨.index l r, span⟩ : Node).Legible :=
  of_phrase (Phrase.index l.isChain_chain hl.chain hr.expression) rfl rfl rfl rfl

variable {ns : List Node}

theorem items (h : ∀ n ∈ ns, n.Legible) :
    ∀ n ∈ ns, Phrase .assignment (n.enclosed Precedence.assign n.text) n.leftNested false :=
  fun n hn => (h n hn).enclosed (q := Precedence.assign) (by decide) (by decide)

theorem array (h : ∀ n ∈ ns, n.Legible) : (⟨.array ns, span⟩ : Node).Legible := by
  have harray := Phrase.array (items h)
  rw [← items_eq] at harray
  exact of_phrase (harray.unit (s := .member) (by decide)) rfl rfl rfl rfl

theorem call (hl : l.Legible) (h : ∀ n ∈ ns, n.Legible) : (⟨.call l ns, span⟩ : Node).Legible := by
  have hcall := Phrase.call l.isChain_chain hl.chain (items h)
  rw [← items_eq] at hcall
  exact of_phrase hcall rfl rfl rfl rfl

theorem construct (hl : l.Legible) (h : ∀ n ∈ ns, n.Legible) :
    (⟨.construct l ns, span⟩ : Node).Legible := by
  have hconstruct := Phrase.construct hl.constructor (items h)
  rw [← items_eq] at hconstruct
  exact of_phrase hconstruct rfl rfl rfl rfl

end Node.Legible

namespace Node

variable {n l r : Node} {span : Span} {P : Form Node → Prop}

/-- After a comma the text goes on with a sequence, whatever came before. -/
def Follows (n : Node) : Prop :=
  ∀ {t : List Char} {e : Node} {dot : Bool}, Phrase .expression t e dot →
    Phrase .expression (t ++ ',' :: n.text) (e.followedBy n.leftNested) false

/-- All but sequences are the last item of one. -/
theorem Legible.follows (h : n.Legible) (hn : Precedence.assign ≤ n.precedence) : n.Follows := by
  intro t e dot he
  have hlast : e.followedBy n.leftNested = Build.sequence e n.leftNested := by
    obtain ⟨form, span⟩ := n
    rw [leftNested_eq]
    cases form with
    | sequence => exact absurd hn (Nat.not_succ_le_self _)
    | _ => rfl
  rw [hlast]
  exact he.sequence (h.binding (by decide) hn (by decide))

theorem Legible.sequence (hl : l.Legible) (hr : r.Follows) :
    (⟨.sequence l r, span⟩ : Node).Legible :=
  .of_phrase (hr hl.expression) rfl rfl rfl rfl

theorem Follows.sequence (hl : l.Follows) (hr : r.Follows) :
    (⟨.sequence l r, span⟩ : Node).Follows := by
  intro t e dot he
  have htext : t ++ ',' :: (l.text ++ ',' :: r.text) = t ++ ',' :: l.text ++ ',' :: r.text := by
    simp
  have htree : (⟨.sequence l r, span⟩ : Node).leftNested = l.leftNested.followedBy r.leftNested :=
    leftNested_eq _
  rw [htree, followedBy_assoc]
  exact htext ▸ hr (hl he)

end Node

/-- The forms of expressions that can be told from their texts. Numbers are whole and not negative,
for other numbers are written with operators. -/
def Form.Readable : Form Node → Prop
  | identifier name => Text.isIdentifier name = true
  | number x => ∃ n < 2 ^ 53, x = .ofNat n
  | member _ name => Text.isName name = true
  | update op _ => op = .increment ∨ op = .decrement
  | string _ | boolean _ | null | this | unary .. | binary .. | assign .. | conditional ..
  | sequence .. | call .. | construct .. | index .. | array _ => True
  | _ => False

namespace Node

variable {n : Node} {form : Form Node} {span : Span}

/-- One layer of syntax. -/
theorem legible_layer (hform : form.Readable) (hsequence : ∀ a b, form ≠ .sequence a b)
    (h : ∀ c ∈ form.children, c.Legible) : (⟨form, span⟩ : Node).Legible := by
  cases form with
  | identifier name => exact .identifier hform
  | string s => exact .string
  | number x =>
    obtain ⟨k, hk, hx⟩ := hform
    exact .number hk hx
  | boolean b =>
    cases b with
    | true => exact .constant "true" (by simp [Script.constants, Build.boolean])
    | false => exact .constant "false" (by simp [Script.constants, Build.boolean])
  | null => exact .constant "null" (by simp [Script.constants, Build.null])
  | this => exact .constant "this" (by simp [Script.constants])
  | unary op x => exact .unary (h x (by simp [Form.children]))
  | update op x => exact .update (h x (by simp [Form.children])) hform
  | binary op l r => exact .binary (h l (by simp [Form.children])) (h r (by simp [Form.children]))
  | assign op l r => exact .assign (h l (by simp [Form.children])) (h r (by simp [Form.children]))
  | conditional c a b =>
    exact .conditional (h c (by simp [Form.children])) (h a (by simp [Form.children]))
      (h b (by simp [Form.children]))
  | sequence a b => exact absurd rfl (hsequence a b)
  | call e args =>
    exact .call (h e List.mem_cons_self) fun a ha => h a (List.mem_cons_of_mem e ha)
  | construct e args =>
    exact .construct (h e List.mem_cons_self) fun a ha => h a (List.mem_cons_of_mem e ha)
  | member e name => exact .member (h e (by simp [Form.children])) hform
  | index e p => exact .index (h e (by simp [Form.children])) (h p (by simp [Form.children]))
  | array es => exact .array h
  | _ => cases hform

theorem legible_of_builtOf (h : n.BuiltOf Form.Readable) : n.Legible ∧ n.Follows := by
  induction h with
  | @mk form span hs hform hc ih =>
    have hscope : form.opensScope = false := by
      cases form with
      | function => cases hform
      | _ => simp_all [Form.opensScope, Form.isStatement]
    by_cases hsequence : ∃ a b, form = .sequence a b
    · obtain ⟨a, b, rfl⟩ := hsequence
      obtain ⟨ha, ha'⟩ := ih rfl a (by simp [Form.children])
      obtain ⟨hb, hb'⟩ := ih rfl b (by simp [Form.children])
      exact ⟨ha.sequence hb', ha'.sequence hb'⟩
    · have hlegible : (⟨form, span⟩ : Node).Legible :=
        legible_layer hform (fun a b h => hsequence ⟨a, b, h⟩) fun c hc => (ih hscope c hc).1
      exact ⟨hlegible, hlegible.follows ((assign_le_precedence _).resolve_left hsequence)⟩

/-- The text of a readable expression is one of tokens, and the only tree that derives from these is
the expression with its sequences nested to the left. -/
theorem print_reads_back (h : n.BuiltOf Form.Readable) :
    ∃ ts, Script.scan n.print.toList = some ts ∧
      ∀ e, Script.Derives .expression ts e ↔ e = n.leftNested := by
  obtain ⟨ts, hoperand, hderives⟩ := (legible_of_builtOf h).1.expression
  refine ⟨ts, ?_, fun e => ⟨fun he => hderives.unique he, ?_⟩⟩
  · rw [print, String.toList_ofList]
    exact hoperand.lexes.scan_eq
  · rintro rfl
    exact hderives

/-- A sign that a blank keeps apart from the next, and a sequence nested to the right. -/
theorem print_sequence_reads_back :
    let difference := Build.binary .sub (Build.number (.ofNat 0))
      (Build.unary .decrement (Build.identifier "b"))
    let n := Build.sequence (Build.identifier "a")
      (Build.sequence difference (Build.identifier "c"))
    n.BuiltOf Form.Readable ∧ n.print = "a,0- --b,c" ∧
      n.leftNested = Build.sequence (Build.sequence (Build.identifier "a") difference)
        (Build.identifier "c") ∧
      ∃ ts, Script.scan n.print.toList = some ts ∧
        ∀ e, Script.Derives .expression ts e ↔ e = n.leftNested := by
  intro difference n
  have hname (name : String) (h : Text.isIdentifier name = true) :
      (Build.identifier name).BuiltOf Form.Readable :=
    .mk rfl h fun _ c hc => nomatch hc
  have hzero : (Build.number (.ofNat 0)).BuiltOf Form.Readable :=
    .mk rfl ⟨0, by decide, rfl⟩ fun _ c hc => nomatch hc
  have hdecrement : (Build.unary .decrement (Build.identifier "b")).BuiltOf Form.Readable :=
    .mk rfl trivial fun _ => List.forall_mem_singleton.2 (hname "b" (by decide))
  have hdifference : difference.BuiltOf Form.Readable :=
    .mk rfl trivial fun _ => by simp [Form.children, hzero, hdecrement]
  have hrest : (Build.sequence difference (Build.identifier "c")).BuiltOf Form.Readable :=
    .mk rfl trivial fun _ => by simp [Form.children, hdifference, hname "c" (by decide)]
  have hn : n.BuiltOf Form.Readable :=
    .mk rfl trivial fun _ => by simp [Form.children, hname "a" (by decide), hrest]
  have hnested : n.leftNested = Build.sequence
      (Build.sequence (Build.identifier "a") difference) (Build.identifier "c") := by
    simp [n, difference, Build.sequence, Build.identifier, Build.binary, Build.unary, Build.number,
      Form.node, leftNested_eq, Form.map, Form.nested, followedBy]
  exact ⟨hn, by decide +kernel, hnested, print_reads_back hn⟩

end Node

end ScriptMinifier
