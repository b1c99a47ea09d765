import ScriptMinifier.Proofs.Operands

namespace ScriptMinifier.Script

variable {s s' : Symbol} {t u v : List Char} {e a b : Node} {dot dot' : Bool} {p q : Nat}
  {name : String}

/-- The text is read as tokens that derive the tree; a point may follow if `dot` says so. -/
def Phrase (s : Symbol) (t : List Char) (e : Node) (dot : Bool) : Prop :=
  ∃ ts, Operand t ts dot ∧ Derives s ts e

/-- What is asked for where an operand has to bind at least this tightly. -/
def Symbol.binding (least : Nat) : Symbol :=
  if least ≤ Precedence.sequence then .expression
  else if least ≤ Precedence.assign then .assignment
  else if least ≤ Precedence.conditional then .conditional
  else if least ≤ Precedence.unary then .rung (least - Precedence.or)
  else if least ≤ Precedence.update then .update
  else .leftHandSide

theorem Symbol.binding_mem_units (hq : Precedence.sequence ≤ q) (hcall : q < Precedence.call) :
    binding (q + 1) ∈ (binding q).units := by
  have hall : ∀ q < Precedence.call, Precedence.sequence ≤ q →
      binding (q + 1) ∈ (binding q).units := by
    decide
  exact hall q hcall hq

namespace Phrase

theorem unit (h : Phrase s' t e dot) (hs : s' ∈ s.units) : Phrase s t e dot := by
  obtain ⟨ts, hoperand, hderives⟩ := h
  exact ⟨ts, hoperand, .unit hs hderives⟩

theorem undotted (h : Phrase s t e dot) : Phrase s t e false := by
  obtain ⟨ts, hoperand, hderives⟩ := h
  exact ⟨ts, ⟨hoperand.start, hoperand.lexes.mono fun c hc => ⟨hc.1, fun hdot => nomatch hc.2 hdot⟩⟩,
    hderives⟩

/-- What binds tightly may stand where less is asked for. -/
theorem loosen (h : Phrase (.binding p) t e dot) (hq : Precedence.sequence ≤ q) (hqp : q ≤ p)
    (hp : p ≤ Precedence.call) : Phrase (.binding q) t e dot := by
  induction p, hqp using Nat.le_induction with
  | base => exact h
  | succ p hqp ih =>
    have hunit := Symbol.binding_mem_units (Nat.le_trans hq hqp) hp
    exact ih (h.unit hunit) (Nat.le_of_succ_le hp)

theorem word (hname : Text.isName name = true) (h : Derives .primary [.word name] e) :
    Phrase .primary name.toList e true :=
  ⟨_, operand_word hname true, h⟩

theorem digits (n : Nat) : Phrase .primary (Nat.toDigits 10 n) (Build.number (.ofNat n)) false :=
  ⟨_, operand_digits n, .number _⟩

theorem quote (text : String) : Phrase .primary (Text.quote text) (Build.string text) true :=
  ⟨_, operand_quote text true, .string _⟩

theorem parenthesized (h : Phrase .expression t e dot) :
    Phrase .primary (ScriptMinifier.parenthesized t) e true := by
  obtain ⟨ts, hoperand, hderives⟩ := h
  exact ⟨_, hoperand.parenthesized, .parenthesized hderives⟩

variable {α : Type} {text : α → List Char} {tree : α → Node} {as : List α}

/-- What stands between commas, with the tokens that each item is read as. -/
theorem items (h : ∀ a ∈ as, Phrase .assignment (text a) (tree a) false) :
    ∃ tokens : α → List Token, (∀ a ∈ as, Operand (text a) (tokens a) false) ∧
      ∃ items : List (List Token × Node), items.map Prod.fst = as.map tokens ∧
        items.map Prod.snd = as.map tree ∧ ∀ i ∈ items, Derives .assignment i.1 i.2 := by
  choose! tokens hoperand hderives using h
  refine ⟨tokens, hoperand, as.map fun a => (tokens a, tree a), by simp [Function.comp_def],
    by simp [Function.comp_def], ?_⟩
  intro i hi
  obtain ⟨a, ha, rfl⟩ := List.mem_map.1 hi
  exact hderives a ha

theorem array (h : ∀ a ∈ as, Phrase .assignment (text a) (tree a) false) :
    Phrase .primary ('[' :: commaSeparated (as.map text) ++ [']'])
      (Form.array (as.map tree)).node true := by
  obtain ⟨tokens, hoperand, items, htokens, htrees, hderives⟩ := items h
  have harray := operand_array hoperand
  rw [← htokens] at harray
  rw [← htrees]
  exact ⟨_, harray, .array hderives⟩

theorem call (hs : s.IsChain) (hcallee : Phrase s t e dot)
    (h : ∀ a ∈ as, Phrase .assignment (text a) (tree a) false) :
    Phrase .call (t ++ ScriptMinifier.parenthesized (commaSeparated (as.map text)))
      (Form.call e (as.map tree)).node true := by
  obtain ⟨ts, hcallee, hderives⟩ := hcallee
  obtain ⟨tokens, hoperand, items, htokens, htrees, hitems⟩ := items h
  have hcall := hcallee.applied hoperand
  rw [← htokens] at hcall
  rw [← htrees]
  exact ⟨_, hcall, .call hs hderives hitems⟩

theorem construct (hcallee : Phrase .member t e dot)
    (h : ∀ a ∈ as, Phrase .assignment (text a) (tree a) false) :
    Phrase .member
      ("new ".toList ++ t ++ ScriptMinifier.parenthesized (commaSeparated (as.map text)))
      (Form.construct e (as.map tree)).node true := by
  obtain ⟨ts, hcallee, hderives⟩ := hcallee
  obtain ⟨tokens, hoperand, items, htokens, htrees, hitems⟩ := items h
  have hconstruct := hcallee.construct hoperand
  rw [← htokens] at hconstruct
  rw [← htrees]
  exact ⟨_, hconstruct, .construct hderives hitems⟩

theorem index (hs : s.IsChain) (h : Phrase s t e dot) (hindex : Phrase .expression u a dot') :
    Phrase s (t ++ '[' :: u ++ [']']) (Build.index e a) true := by
  obtain ⟨ts, hoperand, hderives⟩ := h
  obtain ⟨us, hinner, hindex⟩ := hindex
  exact ⟨_, hoperand.index hinner, .index hs hderives hindex⟩

theorem member (hs : s.IsChain) (h : Phrase s t e true) (hname : Text.isName name = true) :
    Phrase s (t ++ '.' :: name.toList) (Build.member e name) true := by
  obtain ⟨ts, hoperand, hderives⟩ := h
  exact ⟨_, hoperand.member hname, .member hs hderives hname⟩

theorem update {op : UnaryOperator} (h : Phrase .leftHandSide t e dot)
    (hop : op = .increment ∨ op = .decrement) :
    Phrase .update (t ++ op.text.toList) (Form.update op e).node true := by
  obtain ⟨ts, hoperand, hderives⟩ := h
  have hsuffix : (.mark op.text, op) ∈ suffixOperators ∧ op.text ∈ steady := by
    rcases hop with rfl | rfl <;> decide
  exact ⟨_, hoperand.suffixed hsuffix.2, .update hderives hsuffix.1⟩

theorem unary (h : Phrase .unary t e dot) (op : UnaryOperator) :
    Phrase .unary (op.join t) (Build.unary op e) dot := by
  obtain ⟨ts, hoperand, hderives⟩ := h
  have hop : (op.token, op) ∈ prefixOperators := by
    cases op <;> decide
  exact ⟨_, hoperand.join_unary op, .unary hop hderives⟩

theorem binary {op : BinaryOperator} (h : Phrase (.binding op.precedence) t a dot)
    (h' : Phrase (.binding (op.precedence + 1)) u b dot') :
    Phrase (.binding op.precedence) (op.join t u) (Build.binary op a b) dot' := by
  obtain ⟨k, hleft, hright, hop⟩ : ∃ k : Fin rungs.length,
      Symbol.binding op.precedence = .operation k ∧
      Symbol.binding (op.precedence + 1) = .rung (k + 1) ∧ (op.token, op) ∈ rungs[k] := by
    cases op <;> decide
  rw [hleft] at h ⊢
  rw [hright] at h'
  obtain ⟨ts, hoperand, hderives⟩ := h
  obtain ⟨us, hoperand', hderives'⟩ := h'
  exact ⟨_, hoperand.join_binary hoperand' op, .operation hderives hop hderives'⟩

theorem assign {op : AssignOperator} (h : Phrase .leftHandSide t a dot)
    (h' : Phrase .assignment u b dot') :
    Phrase .assignment (t ++ op.text.toList ++ u) (Form.assign op a b).node dot' := by
  obtain ⟨ts, hoperand, hderives⟩ := h
  obtain ⟨us, hoperand', hderives'⟩ := h'
  have hop : (.mark op.text, op) ∈ assignOperators := by
    cases op <;> decide
  exact ⟨_, hoperand.assign hoperand' op, .assign hderives hop hderives'⟩

theorem conditional {c : Node} {dot'' : Bool} (h : Phrase (.rung 0) t c dot)
    (ha : Phrase .assignment u a dot') (hb : Phrase .assignment v b dot'') :
    Phrase .conditional (t ++ '?' :: u ++ ':' :: v) (Build.conditional c a b) dot'' := by
  obtain ⟨ts, hoperand, hderives⟩ := h
  obtain ⟨us, hoperand', hderives'⟩ := ha
  obtain ⟨vs, hoperand'', hderives''⟩ := hb
  exact ⟨_, hoperand.choice hoperand' hoperand'', .conditional hderives hderives' hderives''⟩

theorem sequence (h : Phrase .expression t a dot) (h' : Phrase .assignment u b dot') :
    Phrase .expression (t ++ ',' :: u) (Build.sequence a b) dot' := by
  obtain ⟨ts, hoperand, hderives⟩ := h
  obtain ⟨us, hoperand', hderives'⟩ := h'
  exact ⟨_, hoperand.steady hoperand' (m := ",") (by decide),
    .sequence hderives hderives'⟩

end Phrase

end ScriptMinifier.Script
