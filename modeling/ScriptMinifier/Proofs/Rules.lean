import ScriptMinifier.Proofs.Parts
import ScriptMinifier.Rules

namespace ScriptMinifier

namespace Primitive

theorem looseEq_boolean (a b : Bool) : (boolean a).looseEq (.boolean b) =
    (boolean a).strictEq (.boolean b) := by
  simp only [looseEq]
  cases a <;> cases b <;> decide

theorem looseEq_string (a b : String) : (string a).looseEq (.string b) =
    (string a).strictEq (.string b) := by
  rw [looseEq]
  all_goals simp

/-- A text that counts as true makes every sum with it one that does. -/
theorem truthy_add_left {v w : Primitive} (ht : v.truthy = true) (hs : v.typeName = "string") :
    (v.add w).truthy = true := by
  cases v with
  | string s =>
    have hne : s ≠ "" := by simpa [truthy] using ht
    simp [add, truthy, hne]
  | _ => simp [typeName] at hs

theorem truthy_add_right {v w : Primitive} (ht : w.truthy = true) (hs : w.typeName = "string") :
    (v.add w).truthy = true := by
  cases w with
  | string s =>
    have hne : s ≠ "" := by simpa [truthy] using ht
    cases v <;> simp [add, truthy, toText, hne]
  | _ => simp [typeName] at hs

/-- `!0` is true and `!1` is false. -/
theorem not_digit (b : Bool) :
    UnaryOperator.not.eval? (number (if b then 0.0 else 1.0)) = some (boolean b) := by
  cases b <;> decide

end Primitive

/-- The value by which folding replaces an expression. -/
def Options.value? (o : Options) (n : Node) : Option Primitive :=
  if o.on .constants then
    match n.constant? with
    | .ok v? => v?
    | .error _ => none
  else none

/-- The expression after folding. -/
def Options.folded (o : Options) (n : Node) : Node :=
  match o.value? n with
  | some v => v.toNode n.span
  | none => n

theorem Options.constant?_of_value? {o : Options} {n : Node} {v : Primitive}
    (h : o.value? n = some v) : n.constant? = .ok (some v) := by
  unfold value? at h
  split at h
  · split at h
    · simp_all
    · simp at h
  · simp at h

theorem Options.value?_of_constant? {o : Options} {n : Node} {v : Primitive}
    (ho : o.on .constants = true) (h : n.constant? = .ok (some v)) : o.value? n = some v := by
  simp [value?, ho, h]

theorem Options.foldConstant_eq {o : Options} {n : Node} :
    o.foldConstant n = .ok (o.folded n, o.value? n) ∨
      ∃ f, n.constant? = .error f ∧ o.foldConstant n = .error f := by
  unfold foldConstant folded value?
  cases hc : o.on .constants with
  | false => exact .inl rfl
  | true =>
    cases hn : n.constant? with
    | ok v? => cases v? <;> exact .inl rfl
    | error f => exact .inr ⟨f, rfl, rfl⟩

namespace Node

section Negation

variable {b : Bool} {span : Span} {m : Node}

theorem negate_unary {op : UnaryOperator} {x : Node}
    (h : (⟨.unary op x, span⟩ : Node).negate b = .ok m) :
    (op = .not ∧ m = x) ∨ m = not ⟨.unary op x, span⟩ := by
  cases op with
  | not => exact .inl ⟨rfl, (Except.ok.inj h).symm⟩
  | _ => exact .inr (Except.ok.inj h).symm

theorem negate_sequence {x y : Node} (h : (⟨.sequence x y, span⟩ : Node).negate b = .ok m) :
    ∃ y', y.negate b = .ok y' ∧ m = ⟨.sequence x y', span⟩ := by
  rw [negate_sequence_eq] at h
  cases hy : y.negate b with
  | error f => rw [hy] at h; cases h
  | ok y' => rw [hy] at h; exact ⟨y', rfl, (Except.ok.inj h).symm⟩

theorem negate_conditional {c x y : Node}
    (h : (⟨.conditional c x y, span⟩ : Node).negate b = .ok m) :
    ∃ x' y', x.negate b = .ok x' ∧ y.negate b = .ok y' ∧ m = ⟨.conditional c x' y', span⟩ := by
  rw [negate_conditional_eq] at h
  cases hx : x.negate b with
  | error f => rw [hx] at h; cases h
  | ok x' =>
    cases hy : y.negate b with
    | error f => rw [hx, hy] at h; cases h
    | ok y' => rw [hx, hy] at h; exact ⟨x', y', rfl, rfl, (Except.ok.inj h).symm⟩

/-- A binary expression is put behind `!`, or its operator is turned around and, if it is a logical
one, its operands are negated. -/
theorem negate_binary {op : BinaryOperator} {x y : Node}
    (h : (⟨.binary op x y, span⟩ : Node).negate b = .ok m) :
    m = not ⟨.binary op x y, span⟩ ∨
      (∃ op', op.opposite? b = some op' ∧ op'.isLogical = false ∧ m = ⟨.binary op' x y, span⟩) ∨
      ∃ op' x' y', op.opposite? b = some op' ∧ op'.isLogical = true ∧ x.negate b = .ok x' ∧
        y.negate b = .ok y' ∧ m = ⟨.binary op' x' y', span⟩ := by
  rw [negate_binary_eq] at h
  split at h
  · exact .inl (Except.ok.inj h).symm
  · rename_i op' hop
    split at h
    · rename_i hlog
      cases hx : x.negate b with
      | error f => rw [hx] at h; cases h
      | ok x' =>
        cases hy : y.negate b with
        | error f => rw [hx, hy] at h; cases h
        | ok y' =>
          rw [hx, hy] at h
          exact .inr (.inr ⟨op', x', y', hop, hlog, rfl, rfl, (Except.ok.inj h).symm⟩)
    · rename_i hlog
      exact .inr (.inl ⟨op', hop, by simpa using hlog, (Except.ok.inj h).symm⟩)

theorem negate_sequence_error {x y : Node} {f : Fault}
    (h : (⟨.sequence x y, span⟩ : Node).negate b = .error f) : y.negate b = .error f := by
  rw [negate_sequence_eq] at h
  cases hy : y.negate b with
  | ok y' => rw [hy] at h; cases h
  | error f' => rw [hy] at h; cases h; rfl

theorem negate_conditional_error {c x y : Node} {f : Fault}
    (h : (⟨.conditional c x y, span⟩ : Node).negate b = .error f) :
    x.negate b = .error f ∨ y.negate b = .error f := by
  rw [negate_conditional_eq] at h
  cases hx : x.negate b with
  | error f' => rw [hx] at h; cases h; exact .inl rfl
  | ok x' =>
    cases hy : y.negate b with
    | error f' => rw [hx, hy] at h; cases h; exact .inr rfl
    | ok y' => rw [hx, hy] at h; cases h

theorem negate_binary_error {op : BinaryOperator} {x y : Node} {f : Fault}
    (h : (⟨.binary op x y, span⟩ : Node).negate b = .error f) :
    x.negate b = .error f ∨ y.negate b = .error f := by
  rw [negate_binary_eq] at h
  split at h
  · cases h
  · split at h
    · cases hx : x.negate b with
      | error f' => rw [hx] at h; cases h; exact .inl rfl
      | ok x' =>
        cases hy : y.negate b with
        | error f' => rw [hx, hy] at h; cases h; exact .inr rfl
        | ok y' => rw [hx, hy] at h; cases h
    · cases h

end Negation

end Node

namespace Node

section Evaluation

variable {span : Span} {f : Fault}

theorem constant?_unary_error {op : UnaryOperator} {x : Node}
    (h : (⟨.unary op x, span⟩ : Node).constant? = .error f) : x.constant? = .error f := by
  rw [constant?_unary_eq] at h
  split at h
  · cases hx : x.constant? with
    | ok v? => rw [hx] at h; cases h
    | error f' => rw [hx] at h; cases h; rfl
  · cases h

theorem constant?_binary_error {op : BinaryOperator} {l r : Node}
    (h : (⟨.binary op l r, span⟩ : Node).constant? = .error f) :
    l.constant? = .error f ∨ r.constant? = .error f := by
  rw [constant?_binary_eq] at h
  cases hl : l.constant? with
  | error f' => rw [hl] at h; cases h; exact .inl rfl
  | ok v? =>
    cases hr : r.constant? with
    | error f' => rw [hl, hr] at h; cases h; exact .inr rfl
    | ok w? => rw [hl, hr] at h; cases h

theorem constant?_conditional_error {c a b : Node}
    (h : (⟨.conditional c a b, span⟩ : Node).constant? = .error f) :
    c.constant? = .error f ∨ a.constant? = .error f ∨ b.constant? = .error f := by
  rw [constant?_conditional_eq] at h
  cases hc : c.constant? with
  | error f' => rw [hc] at h; cases h; exact .inl rfl
  | ok v? =>
    rw [hc] at h
    cases v? with
    | none => cases h
    | some v =>
      cases hv : v.truthy <;> simp only [bind, Except.bind, hv] at h
      · exact .inr (.inr h)
      · exact .inr (.inl h)

theorem constant?_unary_some {op : UnaryOperator} {x : Node} {v : Primitive}
    (h : (⟨.unary op x, span⟩ : Node).constant? = .ok (some v)) :
    ∃ u, x.constant? = .ok (some u) ∧ op.eval? u = some v := by
  rw [constant?_unary_eq] at h
  split at h
  · cases hx : x.constant? with
    | error f => rw [hx] at h; cases h
    | ok u? =>
      rw [hx] at h
      obtain ⟨u, hu, hv⟩ := Option.bind_eq_some_iff.1 (Except.ok.inj h)
      exact ⟨u, by rw [hu], hv⟩
  · cases h

theorem constant?_binary_some {op : BinaryOperator} {l r : Node} {v : Primitive}
    (h : (⟨.binary op l r, span⟩ : Node).constant? = .ok (some v)) :
    ∃ u w, l.constant? = .ok (some u) ∧ r.constant? = .ok (some w) ∧ op.eval? u w = some v := by
  rw [constant?_binary_eq] at h
  cases hl : l.constant? with
  | error f => rw [hl] at h; cases h
  | ok u? =>
    cases hr : r.constant? with
    | error f => rw [hl, hr] at h; cases h
    | ok w? =>
      rw [hl, hr] at h
      obtain ⟨u, hu, hv⟩ := Option.bind_eq_some_iff.1 (Except.ok.inj h)
      obtain ⟨w, hw, hv⟩ := Option.bind_eq_some_iff.1 hv
      exact ⟨u, w, by rw [hu], by rw [hw], hv⟩

theorem constant?_conditional_some {c a b : Node} {v : Primitive}
    (h : (⟨.conditional c a b, span⟩ : Node).constant? = .ok (some v)) :
    ∃ u, c.constant? = .ok (some u) ∧
      (if u.truthy then a else b).constant? = .ok (some v) := by
  rw [constant?_conditional_eq] at h
  cases hc : c.constant? with
  | error f => rw [hc] at h; cases h
  | ok u? =>
    rw [hc] at h
    cases u? with
    | none => cases h
    | some u =>
      refine ⟨u, rfl, ?_⟩
      cases hu : u.truthy <;> simpa [bind, Except.bind, hu] using h

theorem constant?_unary_of {op : UnaryOperator} {x : Node} {u : Primitive}
    (hop : op.isPure = true) (hx : x.constant? = .ok (some u)) :
    (⟨.unary op x, span⟩ : Node).constant? = .ok (op.eval? u) := by
  rw [constant?_unary_eq, if_pos hop, hx]
  rfl

theorem constant?_binary_of {op : BinaryOperator} {l r : Node} {u w : Primitive}
    (hl : l.constant? = .ok (some u)) (hr : r.constant? = .ok (some w)) :
    (⟨.binary op l r, span⟩ : Node).constant? = .ok (op.eval? u w) := by
  rw [constant?_binary_eq, hl, hr]
  rfl

theorem constant?_conditional_of {c a b : Node} {u : Primitive}
    (hc : c.constant? = .ok (some u)) :
    (⟨.conditional c a b, span⟩ : Node).constant? = (if u.truthy then a else b).constant? := by
  rw [constant?_conditional_eq, hc]
  cases hu : u.truthy <;> simp [bind, Except.bind, hu]

end Evaluation

/-- An operator that has an opposite answers for all values. -/
theorem exists_eval?_of_opposite? {op op' : BinaryOperator} {b : Bool}
    (h : op.opposite? b = some op') (u w : Primitive) : ∃ v, op.eval? u w = some v := by
  cases op with
  | inside | instanceOf => cases h
  | _ => exact ⟨_, rfl⟩

/-- Negating makes no expression constant that was not. -/
theorem exists_constant?_of_negate {n m : Node} {b : Bool} {v : Primitive}
    (hm : n.negate b = .ok m) (hv : m.constant? = .ok (some v)) :
    ∃ w, n.constant? = .ok (some w) := by
  induction n using Node.induct generalizing m v with
  | h n ih =>
    obtain ⟨form, span⟩ := n
    have hnot (h : m = not ⟨form, span⟩) : ∃ w, (⟨form, span⟩ : Node).constant? = .ok (some w) := by
      subst h
      obtain ⟨u, hu, -⟩ := constant?_unary_some hv
      exact ⟨u, hu⟩
    cases form with
    | sequence x y =>
      obtain ⟨y', -, rfl⟩ := negate_sequence hm
      cases hv
    | conditional c x y =>
      obtain ⟨x', y', hx, hy, rfl⟩ := negate_conditional hm
      obtain ⟨u, hc, hu⟩ := constant?_conditional_some hv
      rw [constant?_conditional_of hc]
      cases ht : u.truthy with
      | true =>
        rw [ht] at hu
        exact ih x (by simp [children, Form.children]) hx hu
      | false =>
        rw [ht] at hu
        exact ih y (by simp [children, Form.children]) hy hu
    | binary op x y =>
      obtain h | ⟨op', hop, -, rfl⟩ | ⟨op', x', y', hop, -, hx, hy, rfl⟩ := negate_binary hm
      · exact hnot h
      · obtain ⟨u, w, hx, hy, -⟩ := constant?_binary_some hv
        rw [constant?_binary_of hx hy]
        obtain ⟨v', hv'⟩ := exists_eval?_of_opposite? hop u w
        exact ⟨v', congrArg _ hv'⟩
      · obtain ⟨u', w', hx', hy', -⟩ := constant?_binary_some hv
        obtain ⟨u, hu⟩ := ih x (by simp [children, Form.children]) hx hx'
        obtain ⟨w, hw⟩ := ih y (by simp [children, Form.children]) hy hy'
        rw [constant?_binary_of hu hw]
        obtain ⟨v', hv'⟩ := exists_eval?_of_opposite? hop u w
        exact ⟨v', congrArg _ hv'⟩
    | unary op x =>
      obtain ⟨rfl, rfl⟩ | h := negate_unary hm
      · rw [constant?_unary_of rfl hv]
        exact ⟨_, rfl⟩
      · exact hnot h
    | _ =>
      first
        | exact hnot (Except.ok.inj hm).symm
        | cases hm

end Node

/-- Negating gives no value to an expression that had none. -/
theorem Options.value?_of_negate {o : Options} {n m : Node} {b : Bool}
    (hm : n.negate b = .ok m) (hn : o.value? n = none) : o.value? m = none := by
  by_contra hne
  obtain ⟨v, hv⟩ := Option.ne_none_iff_exists'.1 hne
  have hon : o.on .constants = true := by
    by_contra hoff
    simp [value?, hoff] at hv
  obtain ⟨w, hw⟩ := Node.exists_constant?_of_negate hm (constant?_of_value? hv)
  simp [value?, hon, hw] at hn

/-- An expression built of forms that satisfy `P`, all of them expressions. The bodies of functions
are left aside. -/
inductive Node.BuiltOf (P : Form Node → Prop) : Node → Prop
  | mk {form : Form Node} {span : Span} : form.isStatement = false → P form →
    (form.opensScope = false → ∀ c ∈ form.children, BuiltOf P c) → BuiltOf P ⟨form, span⟩

namespace Node.BuiltOf

variable {P Q : Form Node → Prop} {n : Node} {form : Form Node} {span : Span}

theorem holds (h : (⟨form, span⟩ : Node).BuiltOf P) : P form := by
  cases h with
  | mk _ hP _ => exact hP

theorem isStatement (h : (⟨form, span⟩ : Node).BuiltOf P) : form.isStatement = false := by
  cases h with
  | mk hs _ _ => exact hs

theorem child (h : (⟨form, span⟩ : Node).BuiltOf P) (hf : form.opensScope = false) {c : Node}
    (hc : c ∈ form.children) : c.BuiltOf P := by
  cases h with
  | mk _ _ hp => exact hp hf c hc

theorem mono (h : n.BuiltOf P) (hPQ : ∀ form, P form → Q form) : n.BuiltOf Q := by
  induction h with
  | mk hs hP _ ih => exact .mk hs (hPQ _ hP) ih

theorem and (hP : n.BuiltOf P) (hQ : n.BuiltOf Q) : n.BuiltOf fun form => P form ∧ Q form := by
  induction hP with
  | mk hs hP _ ih =>
    exact .mk hs ⟨hP, hQ.holds⟩ fun hf c hc => ih hf c hc (hQ.child hf hc)

end Node.BuiltOf

def BinaryOperator.isOrder : BinaryOperator → Bool
  | lt | le | gt | ge => true
  | _ => false

namespace Rule

open Pass (Grounded)

/-- To evaluate or to negate the expression is a fault only if `F`. -/
def Evaluable (F : Fault → Prop) (n : Node) : Prop :=
  (∀ f, n.constant? = .error f → F f) ∧ ∀ b f, n.negate b = .error f → F f

theorem constant?_ne_error {P : Form Node → Prop} {n : Node} (h : n.BuiltOf P) (f : Fault) :
    n.constant? ≠ .error f := by
  induction n using Node.induct with
  | h n ih =>
    obtain ⟨form, span⟩ := n
    have hform := h.isStatement
    intro hn
    cases form with
    | unary op x =>
      have hx : x ∈ (Form.unary op x).children := by simp [Form.children]
      exact ih x hx (h.child rfl hx) (Node.constant?_unary_error hn)
    | binary op l r =>
      have hl : l ∈ (Form.binary op l r).children := by simp [Form.children]
      have hr : r ∈ (Form.binary op l r).children := by simp [Form.children]
      rcases Node.constant?_binary_error hn with hn | hn
      · exact ih l hl (h.child rfl hl) hn
      · exact ih r hr (h.child rfl hr) hn
    | conditional c a b =>
      have hc : c ∈ (Form.conditional c a b).children := by simp [Form.children]
      have ha : a ∈ (Form.conditional c a b).children := by simp [Form.children]
      have hb : b ∈ (Form.conditional c a b).children := by simp [Form.children]
      rcases Node.constant?_conditional_error hn with hn | hn | hn
      · exact ih c hc (h.child rfl hc) hn
      · exact ih a ha (h.child rfl ha) hn
      · exact ih b hb (h.child rfl hb) hn
    | _ => simp_all [Node.constant?, Node.isStatement]

theorem negate_ne_error {P : Form Node → Prop} {n : Node} (h : n.BuiltOf P) (b : Bool)
    (f : Fault) : n.negate b ≠ .error f := by
  induction n using Node.induct with
  | h n ih =>
    obtain ⟨form, span⟩ := n
    have hform := h.isStatement
    intro hn
    cases form with
    | sequence x y =>
      have hy : y ∈ (Form.sequence x y).children := by simp [Form.children]
      exact ih y hy (h.child rfl hy) (Node.negate_sequence_error hn)
    | conditional c x y =>
      have hx : x ∈ (Form.conditional c x y).children := by simp [Form.children]
      have hy : y ∈ (Form.conditional c x y).children := by simp [Form.children]
      rcases Node.negate_conditional_error hn with hn | hn
      · exact ih x hx (h.child rfl hx) hn
      · exact ih y hy (h.child rfl hy) hn
    | binary op x y =>
      have hx : x ∈ (Form.binary op x y).children := by simp [Form.children]
      have hy : y ∈ (Form.binary op x y).children := by simp [Form.children]
      rcases Node.negate_binary_error hn with hn | hn
      · exact ih x hx (h.child rfl hx) hn
      · exact ih y hy (h.child rfl hy) hn
    | unary op x => cases op <;> cases hn
    | _ => simp_all [Node.negate, Node.isStatement]

/-- An expression can be evaluated and negated. -/
theorem evaluable_of_builtOf {F : Fault → Prop} {P : Form Node → Prop} {n : Node}
    (h : n.BuiltOf P) : Evaluable F n :=
  ⟨fun f hf => absurd hf (constant?_ne_error h f), fun b f hf => absurd hf (negate_ne_error h b f)⟩

/-- The truth that `&&`, `||` or `+` has whatever else its operands are, given their values. -/
def decided? (op : BinaryOperator) (v? w? : Option Primitive) : Option Bool :=
  let isText (v : Primitive) : Bool := v.truthy && v.typeName = "string"
  match op with
  | .and => if v?.any (!·.truthy) || w?.any (!·.truthy) then some false else none
  | .or => if v?.any (·.truthy) || w?.any (·.truthy) then some true else none
  | .add => if v?.any isText || w?.any isText then some true else none
  | _ => none

/-- What `conditional` can come to. -/
inductive Chosen (o : Options) (c a b : Node) (span : Span) : Node → Prop
  | known {v : Primitive} : o.on .conditionals = true → o.value? c = some v →
    Chosen o c a b span (if v.truthy then a else b)
  | upright : (o.on .conditionals = true → o.value? c = none) →
    Chosen o c a b span ⟨.conditional c a b, span⟩
  | reversed {c' : Node} : o.on .conditionals = true → o.value? c = none →
    c.negate (o.on .comparisons) = .ok c' → Chosen o c a b span ⟨.conditional c' b a, span⟩

/-- What `unary` can come to; `truth` says that only the truth of the node is asked. -/
inductive Prefixed (o : Options) (truth : Bool) (op : UnaryOperator) (x : Node) (span : Span) :
    Node → Prop
  | unwrapped {inner : Node} {s : Span} : truth = true → o.on .booleans = true → op = .not →
    x = ⟨.unary .not inner, s⟩ → Prefixed o truth op x span inner
  | named : truth = true → o.on .booleans = true → op = .typeOf →
    Prefixed o truth op x span (truthLiteral o true span)
  | folded : ¬(truth = true ∧ o.on .booleans = true ∧ op = .typeOf) →
    Prefixed o truth op x span (shortenBoolean o (o.folded ⟨.unary op x, span⟩))

/-- What `truthShortcut` can come to. -/
inductive Shortcut (o : Options) (op : BinaryOperator) (l r : Node) (span : Span) :
    Option Node → Prop
  | decided {b : Bool} : decided? op (o.value? l) (o.value? r) = some b →
    Shortcut o op l r span (some (truthLiteral o b span))
  | right {v : Primitive} : op.isLogical = true → decided? op (o.value? l) (o.value? r) = none →
    o.value? l = some v → Shortcut o op l r span (some r)
  | left {v : Primitive} : op.isLogical = true → decided? op (o.value? l) (o.value? r) = none →
    o.value? l = none → o.value? r = some v → Shortcut o op l r span (some l)
  | open_ : decided? op (o.value? l) (o.value? r) = none → Shortcut o op l r span none

/-- What `binary` can come to. -/
inductive Combined (o : Options) (truth : Bool) (op : BinaryOperator) (l r : Node) (span : Span) :
    Node → Prop
  | decided {b : Bool} : truth = true → o.on .booleans = true →
    decided? op (o.value? l) (o.value? r) = some b →
    Combined o truth op l r span (truthLiteral o b span)
  | right {v : Primitive} : truth = true → o.on .booleans = true → op.isLogical = true →
    decided? op (o.value? l) (o.value? r) = none → o.value? l = some v →
    Combined o truth op l r span (shortenBoolean o r)
  | left {v : Primitive} : truth = true → o.on .booleans = true → op.isLogical = true →
    decided? op (o.value? l) (o.value? r) = none → o.value? l = none → o.value? r = some v →
    Combined o truth op l r span (shortenBoolean o l)
  | folded : (truth = true → o.on .booleans = true →
      decided? op (o.value? l) (o.value? r) = none) →
    Combined o truth op l r span
      (shortenBoolean o (o.folded ⟨.binary (loosen o op l r) l r, span⟩))

/-- What `loop` can come to. -/
inductive Looped (o : Options) (kind : LoopKind) (c body : Node) (span : Span) : Node → Prop
  | forever {v : Primitive} : o.on .loops = true → o.value? c = some v → v.truthy = true →
    Looped o kind c body span ⟨.forLoop none none none body, span⟩
  | never {v : Primitive} : o.on .loops = true → o.value? c = some v → v.truthy = false →
    kind = .whileDo → Looped o kind c body span (.empty span)
  | same : (o.on .loops = true → ∀ v, o.value? c = some v →
      v.truthy = false ∧ kind = .doWhile) → Looped o kind c body span ⟨.loop kind c body, span⟩

/-- What `branches` can come to. -/
inductive Merged (o : Options) (truth : Bool) (c body : Node) (alternative : Option Node)
    (span : Span) : Node → Prop
  | both {yes no n : Node} {s s' : Span} : body = ⟨.expression yes, s⟩ →
    alternative = some ⟨.expression no, s'⟩ → Chosen o c yes no span n →
    Merged o truth c body alternative span ⟨.expression n, span⟩
  | whenTrue {yes n : Node} {s : Span} : body = ⟨.expression yes, s⟩ →
    (alternative = none ∨ ∃ s', alternative = some ⟨.empty, s'⟩) →
    Combined o truth .and c yes span n →
    Merged o truth c body alternative span ⟨.expression n, span⟩
  | whenFalse {no n : Node} {s s' : Span} : body = ⟨.empty, s⟩ →
    alternative = some ⟨.expression no, s'⟩ → Combined o truth .or c no span n →
    Merged o truth c body alternative span ⟨.expression n, span⟩
  | exits {kind : ExitKind} {yes no n : Node} {s s' : Span} : body = ⟨.exit kind (some yes), s⟩ →
    alternative = some ⟨.exit kind (some no), s'⟩ → Chosen o c yes no span n →
    Merged o truth c body alternative span ⟨.exit kind (some n), span⟩
  | same : Merged o truth c body alternative span ⟨.branch c body alternative, span⟩

/-- What `branch` can come to. -/
inductive Branched (o : Options) (truth : Bool) (c body : Node) (alternative : Option Node)
    (span : Span) : Node → Prop
  | known {v : Primitive} : o.on .conditionals = true → o.value? c = some v →
    Branched o truth c body alternative span
      (if v.truthy then body else alternative.getD (.empty span))
  | merged {c' body' : Node} {alternative' : Option Node} {n : Node} :
    o.on .conditionals = true → o.value? c = none →
    swapNegated c body alternative span = (c', body', alternative') →
    Merged o truth c' body' alternative' span n → Branched o truth c body alternative span n
  | off : o.on .conditionals = false →
    Branched o truth c body alternative span ⟨.branch c body alternative, span⟩

/-- What `simplify` can come to. -/
def Simplified (o : Options) (truth : Bool) (span : Span) : Form Node → Node → Prop
  | .debugger, n => n = if o.on .dropDebugger then .empty span else ⟨.debugger, span⟩
  | .labeled label body, n => n = if label.references = 0 then body else ⟨.labeled label body, span⟩
  | .block [m], n => n = m
  | .branch c body alternative, n => Branched o truth c body alternative span n
  | .loop kind c body, n => Looped o kind c body span n
  | .forLoop init c step body, n => n = ⟨.forLoop (init.filter (!·.isEmpty)) c step body, span⟩
  | .boolean b, n => n = truthLiteral o b span
  | .unary op x, n => Prefixed o truth op x span n
  | .binary op l r, n => Combined o truth op l r span n
  | .conditional c a b, n => Chosen o c a b span n
  | .index subject property, n => n = index o subject property span
  | form, n => n = ⟨form, span⟩

/-- A block of one statement becomes that statement. -/
theorem simplified_block {o : Options} {truth : Bool} {span : Span} {body : List Node} {m : Node}
    (h : Simplified o truth span (.block body) m) :
    (∃ a, body = [a] ∧ m = a) ∨ m = ⟨.block body, span⟩ := by
  obtain _ | ⟨a, _ | ⟨_, _⟩⟩ := body
  · exact .inr h
  · exact .inl ⟨a, rfl, h⟩
  · exact .inr h

/-- The expressions that the rule for a form may evaluate or negate have property `P`. -/
def Tests (P : Node → Prop) : Form Node → Prop
  | .branch c body alternative =>
    P c ∧ (∀ x s, c = ⟨.unary .not x, s⟩ → P x) ∧ (∀ x s, body = ⟨.expression x, s⟩ → P x) ∧
      ∀ x s, alternative = some ⟨.expression x, s⟩ → P x
  | .loop _ c _ | .conditional c _ _ | .unary _ c => P c
  | .binary _ l r => P l ∧ P r
  | _ => True

theorem evaluable_any (n : Node) : Evaluable (fun _ => True) n :=
  ⟨fun _ _ => trivial, fun _ _ _ => trivial⟩

/-- Where any fault may occur, the rule may evaluate and negate what it likes. -/
theorem tests_any (form : Form Node) : Tests (Evaluable fun _ => True) form := by
  cases form <;> simp [Tests, evaluable_any]

/-- A class of expressions that is told by the operands, as far as the rules rewrite them. An order
is not put in the place of another operator. -/
structure Closed (P : Node → Prop) : Prop where
  literal (v : Primitive) (span : Span) : P (v.toNode span)
  not {x : Node} {span : Span} : P ⟨.unary .not x, span⟩ ↔ P x
  sequence {a b : Node} {span : Span} : P ⟨.sequence a b, span⟩ ↔ P a ∧ P b
  conditional {c a b : Node} {span : Span} : P ⟨.conditional c a b, span⟩ ↔ P c ∧ P a ∧ P b
  operands {op : BinaryOperator} {l r : Node} {span : Span} :
    P ⟨.binary op l r, span⟩ → P l ∧ P r
  logical {op : BinaryOperator} {l r : Node} {span : Span} :
    op.isLogical = true → P l → P r → P ⟨.binary op l r, span⟩
  replace {op op' : BinaryOperator} {l r l' r' : Node} {span : Span} :
    P ⟨.binary op l r, span⟩ → (op'.isOrder = true → op.isOrder = true) → P l' → P r' →
      P ⟨.binary op' l' r', span⟩

/-- A class of expressions that the rules do not lead out of. A conditional belongs to it by its
parts only where its condition is not decided, and a literal as it is written. -/
structure Keeps (o : Options) (P : Node → Prop) : Prop where
  literal (v : Primitive) (span : Span) : P (shortenBoolean o (v.toNode span))
  not {x : Node} {span : Span} : P ⟨.unary .not x, span⟩ ↔ P x
  sequence {a b : Node} {span : Span} : P ⟨.sequence a b, span⟩ ↔ P a ∧ P b
  parts {c a b : Node} {span : Span} : P ⟨.conditional c a b, span⟩ → P c ∧ P a ∧ P b
  branches {c a b a' b' : Node} {span : Span} :
    P ⟨.conditional c a b, span⟩ → P a' → P b' → P ⟨.conditional c a' b', span⟩
  undecided {c a b : Node} {span : Span} : (o.on .conditionals = true → o.value? c = none) →
    P c → P a → P b → P ⟨.conditional c a b, span⟩
  operands {op : BinaryOperator} {l r : Node} {span : Span} :
    P ⟨.binary op l r, span⟩ → P l ∧ P r
  replace {op op' : BinaryOperator} {l r l' r' : Node} {span : Span} :
    P ⟨.binary op l r, span⟩ → (op'.isOrder = true → op.isOrder = true) → P l' → P r' →
      P ⟨.binary op' l' r', span⟩

/-- A class of expressions and one of statements that the rules for `if` do not lead out of. -/
structure Carries (o : Options) (E Q : Node → Prop) : Prop extends Keeps o E where
  logical {op : BinaryOperator} {l r : Node} {span : Span} :
    op.isLogical = true → E l → E r → E ⟨.binary op l r, span⟩
  expression {x : Node} {span : Span} : Q ⟨.expression x, span⟩ ↔ E x
  exit {kind : ExitKind} {x y z : Node} {s t span : Span} : Q ⟨.exit kind (some x), s⟩ →
    Q ⟨.exit kind (some y), t⟩ → (E x → E y → E z) → Q ⟨.exit kind (some z), span⟩
  empty {span : Span} : Q (.empty span)
  branch {c body : Node} {alternative : Option Node} {span : Span} :
    (o.on .conditionals = true → o.value? c = none) → E c → Q body →
      (∀ a ∈ alternative, Q a) → Q ⟨.branch c body alternative, span⟩

namespace Keeps

variable {P : Node → Prop} {o : Options} {truth : Bool} {span : Span} {n m : Node}

theorem negate (hP : Keeps o P) {b : Bool} (h : P n) (hm : n.negate b = .ok m) : P m := by
  induction n using Node.induct generalizing m with
  | h n ih =>
    obtain ⟨form, span⟩ := n
    have hnot : P (Node.not ⟨form, span⟩) := hP.not.2 h
    cases form with
    | sequence x y =>
      obtain ⟨y', hy, rfl⟩ := Node.negate_sequence hm
      obtain ⟨hx, hPy⟩ := hP.sequence.1 h
      exact hP.sequence.2 ⟨hx, ih y (by simp [Node.children, Form.children]) hPy hy⟩
    | conditional c x y =>
      obtain ⟨x', y', hx, hy, rfl⟩ := Node.negate_conditional hm
      obtain ⟨-, hPx, hPy⟩ := hP.parts h
      exact hP.branches h (ih x (by simp [Node.children, Form.children]) hPx hx)
        (ih y (by simp [Node.children, Form.children]) hPy hy)
    | binary op x y =>
      have horder {op' : BinaryOperator} (hop : op.opposite? b = some op')
          (ho : op'.isOrder = true) : op.isOrder = true := by
        cases op <;> first | rfl | (cases b <;> cases hop <;> cases ho)
      obtain ⟨hPx, hPy⟩ := hP.operands h
      obtain rfl | ⟨op', hop, hlog, rfl⟩ | ⟨op', x', y', hop, hlog, hx, hy, rfl⟩ :=
        Node.negate_binary hm
      · exact hnot
      · exact hP.replace h (horder hop) hPx hPy
      · exact hP.replace h (horder hop) (ih x (by simp [Node.children, Form.children]) hPx hx)
          (ih y (by simp [Node.children, Form.children]) hPy hy)
    | unary op x =>
      obtain ⟨rfl, rfl⟩ | rfl := Node.negate_unary hm
      · exact hP.not.1 h
      · exact hnot
    | _ =>
      first
        | (obtain rfl := Except.ok.inj hm; exact hnot)
        | cases hm

theorem shortenBoolean (hP : Keeps o P) (h : P n) : P (shortenBoolean o n) := by
  unfold Rule.shortenBoolean
  split
  · rename_i b s
    split
    · exact hP.not.2 (hP.literal (.number (if b then 0.0 else 1.0)) s)
    · exact h
  · exact h

theorem truthLiteral (hP : Keeps o P) (b : Bool) : P (truthLiteral o b span) :=
  hP.literal (.boolean b) span

/-- What folding leaves belongs to the class once it is written as it is to be written. -/
theorem folded (hP : Keeps o P) (h : P n) : P (Rule.shortenBoolean o (o.folded n)) := by
  unfold Options.folded
  split
  · exact hP.literal _ _
  · exact hP.shortenBoolean h

theorem chosen (hP : Keeps o P) {c a b : Node} (h : Chosen o c a b span m) (hc : P c)
    (ha : P a) (hb : P b) : P m := by
  cases h with
  | known =>
    split
    · exact ha
    · exact hb
  | upright hopen => exact hP.undecided hopen hc ha hb
  | reversed _ hopen hnegate =>
    have hopposite := Options.value?_of_negate hnegate hopen
    exact hP.undecided (fun _ => hopposite) (hP.negate hc hnegate) hb ha

theorem prefixed (hP : Keeps o P) {op : UnaryOperator} {x : Node}
    (h : Prefixed o truth op x span m) (hn : P ⟨.unary op x, span⟩) : P m := by
  cases h with
  | unwrapped _ _ hop hx =>
    subst hop hx
    exact hP.not.1 (hP.not.1 hn)
  | named => exact hP.truthLiteral true
  | folded => exact hP.folded hn

theorem combined (hP : Keeps o P) {op : BinaryOperator} {l r : Node}
    (h : Combined o truth op l r span m) (hn : P ⟨.binary op l r, span⟩) : P m := by
  obtain ⟨hl, hr⟩ := hP.operands hn
  cases h with
  | decided => exact hP.truthLiteral _
  | right => exact hP.shortenBoolean hr
  | left => exact hP.shortenBoolean hl
  | folded =>
    refine hP.folded (hP.replace hn (fun ho => ?_) hl hr)
    unfold loosen at ho
    split at ho <;> (try split at ho) <;> exact ho

end Keeps

namespace Closed

variable {P : Node → Prop} {o : Options} {truth : Bool} {span : Span} {m : Node}

theorem keeps (hP : Closed P) (o : Options) : Keeps o P where
  literal v span := by
    have hliteral := hP.literal v span
    cases v with
    | boolean b =>
      change P (if o.on .booleans then _ else _)
      split
      · exact hP.not.2 (hP.literal (.number (if b then 0.0 else 1.0)) span)
      · exact hliteral
    | _ => exact hliteral
  not := hP.not
  sequence := hP.sequence
  parts := hP.conditional.1
  branches h ha hb := hP.conditional.2 ⟨(hP.conditional.1 h).1, ha, hb⟩
  undecided _ hc ha hb := hP.conditional.2 ⟨hc, ha, hb⟩
  operands := hP.operands
  replace := hP.replace

theorem truthLiteral (hP : Closed P) (b : Bool) : P (truthLiteral o b span) :=
  (hP.keeps o).truthLiteral b

theorem chosen (hP : Closed P) {c a b : Node} (h : Chosen o c a b span m)
    (hn : P ⟨.conditional c a b, span⟩) : P m := by
  obtain ⟨hc, ha, hb⟩ := hP.conditional.1 hn
  exact (hP.keeps o).chosen h hc ha hb

theorem prefixed (hP : Closed P) {op : UnaryOperator} {x : Node}
    (h : Prefixed o truth op x span m) (hn : P ⟨.unary op x, span⟩) : P m :=
  (hP.keeps o).prefixed h hn

theorem combined (hP : Closed P) {op : BinaryOperator} {l r : Node}
    (h : Combined o truth op l r span m) (hn : P ⟨.binary op l r, span⟩) : P m :=
  (hP.keeps o).combined h hn

end Closed

namespace Carries

variable {E Q : Node → Prop} {o : Options} {truth : Bool} {span : Span} {c body m : Node}
  {alternative : Option Node}

theorem merged (hP : Carries o E Q) (h : Merged o truth c body alternative span m)
    (hopen : o.on .conditionals = true → o.value? c = none) (hc : E c) (hb : Q body)
    (ha : ∀ a ∈ alternative, Q a) : Q m := by
  cases h with
  | both hb' ha' hn =>
    subst hb' ha'
    have hyes := hP.expression.1 hb
    have hno := hP.expression.1 (ha _ rfl)
    exact hP.expression.2 (hP.chosen hn hc hyes hno)
  | whenTrue hb' _ hn =>
    subst hb'
    have hyes := hP.expression.1 hb
    exact hP.expression.2 (hP.combined hn (hP.logical rfl hc hyes))
  | whenFalse _ ha' hn =>
    subst ha'
    have hno := hP.expression.1 (ha _ rfl)
    exact hP.expression.2 (hP.combined hn (hP.logical rfl hc hno))
  | exits hb' ha' hn =>
    subst hb' ha'
    exact hP.exit hb (ha _ rfl) (hP.chosen hn hc)
  | same => exact hP.branch hopen hc hb ha

theorem branched (hP : Carries o E Q) (h : Branched o truth c body alternative span m)
    (hc : E c) (hb : Q body) (ha : ∀ a ∈ alternative, Q a) : Q m := by
  have helse (s : Span) : Q (alternative.getD (.empty s)) := by
    cases alternative with
    | none => exact hP.empty
    | some a => exact ha a rfl
  cases h with
  | known =>
    split
    · exact hb
    · exact helse span
  | merged _ hopen hswap hn =>
    unfold swapNegated at hswap
    split at hswap
    · cases hswap
      have hoperand := Options.value?_of_negate (b := false) rfl hopen
      refine hP.merged hn (fun _ => hoperand) (hP.not.1 hc) (helse span) fun a ha' => ?_
      obtain rfl := Option.some.inj ha'
      exact hb
    · cases hswap
      exact hP.merged hn (fun _ => hopen) hc hb ha
  | off hoff => exact hP.branch (fun hon => absurd hon (by simp [hoff])) hc hb ha

end Carries

section Outcomes

variable {truth : Bool} {F : Fault → Prop} {P : Position → Prop}
  {J : (α : Type) → Pass α → (α → Prop) → Prop} {o : Options} {span : Span}

@[simp] theorem shortenBoolean_truthLiteral (b : Bool) :
    shortenBoolean o (truthLiteral o b span) = truthLiteral o b span := by
  unfold truthLiteral
  cases hb : o.on .booleans <;> simp [shortenBoolean, hb]

/-- An operand whose value does not matter leaves the other one. -/
theorem Shortcut.other {op : BinaryOperator} {l r : Node} (hop : op.isLogical = true)
    (hd : decided? op (o.value? l) (o.value? r) = none) :
    Shortcut o op l r span (if (o.value? l).isSome then some r
      else if (o.value? r).isSome then some l else none) := by
  cases hl : o.value? l with
  | some v => exact .right hop hd hl
  | none =>
    cases hr : o.value? r with
    | some w => exact .left hop hd hl hr
    | none => exact .open_ hd

variable (hJ : Grounded truth F P J)

include hJ

theorem judge_foldConstant {n : Node} (hF : ∀ f, n.constant? = .error f → F f) :
    J _ (Pass.attempt (o.foldConstant n)) (· = (o.folded n, o.value? n)) := by
  apply hJ.attempt <;> rcases o.foldConstant_eq (n := n) with h | ⟨f, hn, h⟩
  · intro a ha
    exact (Except.ok.inj (h.symm.trans ha)).symm
  · intro a ha
    simp [h] at ha
  · intro f' hf
    simp [h] at hf
  · intro f' hf
    obtain rfl := Except.error.inj (h.symm.trans hf)
    exact hF f hn

theorem judge_fold {n : Node} (hF : ∀ f, n.constant? = .error f → F f) :
    J _ (fold o n) (· = shortenBoolean o (o.folded n)) := by
  apply hJ.bind (judge_foldConstant hJ hF)
  rintro _ rfl
  exact hJ.pure rfl

theorem judge_value? {n : Node} (hF : ∀ f, n.constant? = .error f → F f) :
    J _ (value? o n) (· = o.value? n) := by
  apply hJ.bind (judge_foldConstant hJ hF)
  rintro _ rfl
  exact hJ.pure rfl

theorem judge_conditional {c a b : Node} (hs : P span.start) (hF : Evaluable F c) :
    J _ (conditional o c a b span) (Chosen o c a b span) := by
  unfold conditional
  split
  · rename_i hon
    apply hJ.bind (judge_foldConstant hJ hF.1)
    rintro _ rfl
    cases hv : o.value? c with
    | some v => exact hJ.warn_bind hs (hJ.pure (.known hon hv))
    | none =>
      have hc : o.folded c = c := by simp [Options.folded, hv]
      have hnegate : J _ (Pass.attempt (c.negate (o.on .comparisons)))
          fun c' => c.negate (o.on .comparisons) = .ok c' := hJ.attempt (fun _ h => h) (hF.2 _)
      rw [hc]
      apply hJ.bind hnegate
      intro c' hc'
      apply hJ.pure
      unfold shorter
      split
      · exact .reversed hon hv hc'
      · exact .upright fun _ => hv
  · rename_i hoff
    exact hJ.pure (.upright fun hon => absurd hon hoff)

theorem judge_unary {op : UnaryOperator} {x : Node} (hs : P span.start) (hF : Evaluable F x) :
    J _ (unary o op x span) (Prefixed o truth op x span) := by
  have hfold (h : ¬(truth = true ∧ o.on .booleans = true ∧ op = .typeOf)) :
      J _ (fold o ⟨.unary op x, span⟩) (Prefixed o truth op x span) := by
    apply hJ.mono (judge_fold hJ fun f hf => hF.1 f (Node.constant?_unary_error hf))
    rintro _ rfl
    exact .folded h
  unfold unary
  refine hJ.onlyTruthMatters (f := fun t => if (o.on .booleans && t) = true then _ else _) ?_
  split
  · rename_i ht
    obtain ⟨hb, rfl⟩ : o.on .booleans = true ∧ truth = true := by simpa using ht
    split
    · exact hJ.pure (.unwrapped rfl hb rfl rfl)
    · exact hJ.warn_bind hs (hJ.pure (.named rfl hb rfl))
    · rename_i hn _
      exact hfold fun h => hn h.2.2
  · rename_i ht
    exact hfold fun h => ht (by simp [h.1, h.2.1])

theorem judge_truthShortcut {op : BinaryOperator} {l r : Node} (hs : P span.start)
    (hl : Evaluable F l) (hr : Evaluable F r) :
    J _ (truthShortcut o op l r span) (Shortcut o op l r span) := by
  have decide {b : Bool} (finding : Finding)
      (hd : decided? op (o.value? l) (o.value? r) = some b) :
      J _ (do Pass.warn o finding span.start; return some (truthLiteral o b span))
        (Shortcut o op l r span) :=
    hJ.warn_bind hs (hJ.pure (.decided hd))
  unfold truthShortcut
  by_cases hop : op ≠ .and ∧ op ≠ .or ∧ op ≠ .add
  · rw [if_pos hop]
    exact hJ.pure (.open_ (by cases op <;> simp_all [decided?]))
  · rw [if_neg hop]
    apply hJ.bind (judge_value? hJ hl.1)
    rintro _ rfl
    apply hJ.bind (judge_value? hJ hr.1)
    rintro _ rfl
    obtain rfl | rfl | rfl : op = .and ∨ op = .or ∨ op = .add := by
      by_contra hn
      exact hop ⟨fun h => hn (.inl h), fun h => hn (.inr (.inl h)), fun h => hn (.inr (.inr h))⟩
    all_goals dsimp only
    · split <;> rename_i h
      · exact decide _ (if_pos h)
      · exact hJ.pure (Shortcut.other rfl (if_neg h))
    · split <;> rename_i h
      · exact decide _ (if_pos h)
      · exact hJ.pure (Shortcut.other rfl (if_neg h))
    · split <;> rename_i h
      · exact decide _ (if_pos h)
      · exact hJ.pure (.open_ (if_neg h))

theorem judge_binary {op : BinaryOperator} {l r : Node} (hs : P span.start)
    (hl : Evaluable F l) (hr : Evaluable F r) :
    J _ (binary o op l r span) (Combined o truth op l r span) := by
  have hfold (h : truth = true → o.on .booleans = true →
      decided? op (o.value? l) (o.value? r) = none) :
      J _ (fold o ⟨.binary (loosen o op l r) l r, span⟩) (Combined o truth op l r span) := by
    have hF (f : Fault)
        (hf : (⟨.binary (loosen o op l r) l r, span⟩ : Node).constant? = .error f) : F f :=
      (Node.constant?_binary_error hf).elim (hl.1 f) (hr.1 f)
    apply hJ.mono (judge_fold hJ hF)
    rintro _ rfl
    exact .folded h
  unfold binary
  refine hJ.onlyTruthMatters (f := fun t => if (o.on .booleans && t) = true then _ else _) ?_
  by_cases ht : truth = true ∧ o.on .booleans = true
  · obtain ⟨rfl, hb⟩ := ht
    rw [if_pos (by simp [hb])]
    apply hJ.bind (judge_truthShortcut hJ hs hl hr)
    intro n? hn
    cases hn with
    | decided hd =>
      dsimp only
      rw [shortenBoolean_truthLiteral]
      exact hJ.pure (.decided rfl hb hd)
    | right hop hd hv => exact hJ.pure (.right rfl hb hop hd hv)
    | left hop hd hv hw => exact hJ.pure (.left rfl hb hop hd hv hw)
    | open_ hd => exact hfold fun _ _ => hd
  · rw [if_neg (by simpa [and_comm] using ht)]
    apply hJ.bind (hJ.pure (Q := (· = none)) rfl)
    rintro _ rfl
    exact hfold fun h₁ h₂ => absurd ⟨h₁, h₂⟩ ht

theorem judge_loop {kind : LoopKind} {c body : Node} (hs : P span.start) (hF : Evaluable F c) :
    J _ (loop o kind c body span) (Looped o kind c body span) := by
  unfold loop
  dsimp only
  split
  · rename_i hon
    apply hJ.bind (judge_value? hJ hF.1)
    rintro _ rfl
    cases hv : o.value? c with
    | none => exact hJ.pure (.same fun _ v hv' => by simp [hv] at hv')
    | some v =>
      dsimp only
      split
      · exact hJ.pure (.forever hon hv ‹_›)
      · rename_i ht
        have hfalse : v.truthy = false := by simpa using ht
        split
        · exact hJ.warn_bind hs (hJ.pure (.never hon hv hfalse ‹_›))
        · rename_i hkind
          have hdo : kind = .doWhile := by cases kind <;> simp_all
          apply hJ.pure
          apply Looped.same
          intro _ w hw
          obtain rfl := Option.some.inj (hv.symm.trans hw)
          exact ⟨hfalse, hdo⟩
  · rename_i hoff
    apply hJ.bind (hJ.pure (Q := (· = none)) rfl)
    rintro _ rfl
    exact hJ.pure (.same fun hon => absurd hon hoff)

theorem judge_branches {c body : Node} {alternative : Option Node} (hs : P span.start)
    (hc : Evaluable F c) (hb : ∀ x s, body = ⟨.expression x, s⟩ → Evaluable F x)
    (ha : ∀ x s, alternative = some ⟨.expression x, s⟩ → Evaluable F x) :
    J _ (branches o c body alternative span) (Merged o truth c body alternative span) := by
  unfold branches
  split
  · apply hJ.bind (judge_conditional hJ hs hc)
    intro n hn
    exact hJ.pure (.both rfl rfl hn)
  · apply hJ.bind (judge_binary hJ hs hc (hb _ _ rfl))
    intro n hn
    exact hJ.pure (.whenTrue rfl (.inl rfl) hn)
  · apply hJ.bind (judge_binary hJ hs hc (hb _ _ rfl))
    intro n hn
    exact hJ.pure (.whenTrue rfl (.inr ⟨_, rfl⟩) hn)
  · apply hJ.bind (judge_binary hJ hs hc (ha _ _ rfl))
    intro n hn
    exact hJ.pure (.whenFalse rfl rfl hn)
  · split
    · rename_i hk
      subst hk
      apply hJ.bind (judge_conditional hJ hs hc)
      intro n hn
      exact hJ.pure (.exits rfl rfl hn)
    · exact hJ.pure .same
  · exact hJ.pure .same

theorem judge_branch {c body : Node} {alternative : Option Node} (hs : P span.start)
    (hat : P c.span.start) (hF : Tests (Evaluable F) (.branch c body alternative)) :
    J _ (branch o c body alternative span) (Branched o truth c body alternative span) := by
  obtain ⟨hc, hx, hb, ha⟩ := hF
  unfold branch
  split
  · rename_i hon
    apply hJ.bind (judge_foldConstant hJ hc.1)
    rintro _ rfl
    cases hv : o.value? c with
    | some v =>
      have hfolded : (o.folded c).span = c.span := by
        rw [Options.folded, hv]
        rfl
      rw [← hfolded] at hat
      exact hJ.warn_bind hat (hJ.pure (.known hon hv))
    | none =>
      have hfolded : o.folded c = c := by simp [Options.folded, hv]
      rw [hfolded]
      dsimp only
      unfold swapNegated
      split
      · rename_i operand s
        refine hJ.mono (judge_branches hJ hs (hx operand s rfl) ?_ ?_) fun n hn =>
          .merged hon hv rfl hn
        · intro x s' hx'
          cases alternative with
          | none => cases hx'
          | some a =>
            cases (show a = _ from hx')
            exact ha x s' rfl
        · intro x s' hx'
          exact hb x s' (Option.some.inj hx')
      · rename_i hnot
        refine hJ.mono (judge_branches hJ hs hc hb ha) fun n hn => .merged hon hv ?_ hn
        unfold swapNegated
        split
        · rename_i operand s
          exact absurd rfl (hnot operand s)
        · rfl
  · rename_i hoff
    exact hJ.pure (.off (by simpa using hoff))

/-- A form with reduced children becomes one of the nodes that its rule allows. A rule warns where
the node stands, or where a child of it does. -/
theorem judge_simplify {form : Form Node} (hs : P span.start)
    (hat : ∀ c ∈ form.children, P c.span.start) (hF : Tests (Evaluable F) form) :
    J _ (simplify o form span) (Simplified o truth span form) := by
  cases form with
  | branch c body alternative =>
    exact judge_branch hJ hs (hat c List.mem_cons_self) hF
  | loop kind c body => exact judge_loop hJ hs hF
  | unary op x => exact judge_unary hJ hs hF
  | binary op l r => exact judge_binary hJ hs hF.1 hF.2
  | conditional c a b => exact judge_conditional hJ hs hF
  | block body =>
    obtain _ | ⟨n, _ | ⟨_, _⟩⟩ := body <;> exact hJ.pure rfl
  | _ => exact hJ.pure rfl

end Outcomes

end Rule

end ScriptMinifier
