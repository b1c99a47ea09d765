import ScriptMinifier.Proofs.Meaning
import ScriptMinifier.Proofs.ResultType

/-!
What an expression does when it is evaluated. Operands come first, from the left; `&&`, `||` and
`?:` leave out what they need not ask. Operators that need only values answer as they do for
constants, `in` and `instanceof` by a relation that is given, and whatever else an expression does
is an `Action` on the values of its operands. The monad holds the effects of actions.

The rules that look at values and not at truth leave the evaluation of an expression as it is.
-/

namespace ScriptMinifier

/-- What an expression asks of its surroundings once its operands have values. -/
inductive Action where
  | identifier (name : String)
  | this
  | function (name : Option String)
  | unary (op : UnaryOperator)
  | update (op : UnaryOperator)
  | assign (op : AssignOperator)
  | call
  | construct
  /-- `a.b` and `a["b"]` alike. -/
  | access
  | array
  | object (keys : List (PropertyKind × String))
deriving DecidableEq

structure Interpretation (m : Type → Type) where
  act : Action → List Primitive → m Primitive
  test : BinaryOperator → Primitive → Primitive → Bool

namespace Interpretation

variable {m : Type → Type} [Monad m] (I : Interpretation m)

def combine (op : BinaryOperator) (v w : Primitive) : Primitive :=
  (op.eval? v w).getD (.boolean (I.test op v w))

def unary (op : UnaryOperator) (x : m Primitive) : m Primitive := do
  let v ← x
  match op.eval? v with
  | some w => return w
  | none => I.act (.unary op) [v]

def binary (op : BinaryOperator) (x y : m Primitive) : m Primitive :=
  match op with
  | .and => do
    let v ← x
    if v.truthy then y else return v
  | .or => do
    let v ← x
    if v.truthy then return v else y
  | op => do
    let v ← x
    let w ← y
    return I.combine op v w

/-- What a form does over what its parts do. Statements are not evaluated. -/
def layer : Form (m Primitive) → m Primitive
  | .string s => return .string s
  | .number x => return .number x
  | .boolean b => return .boolean b
  | .null => return .null
  | .undefined => return .undefined
  | .identifier name => I.act (.identifier name) []
  | .this => I.act .this []
  | .function l => I.act (.function l.name) []
  | .unary op x => I.unary op x
  | .update op x => do I.act (.update op) [← x]
  | .binary op x y => I.binary op x y
  | .assign op x y => do
    let v ← x
    let w ← y
    I.act (.assign op) [v, w]
  | .conditional c x y => do
    let v ← c
    if v.truthy then x else y
  | .sequence x y => do
    let _ ← x
    y
  | .call x ys => do
    let v ← x
    let ws ← ys.mapM id
    I.act .call (v :: ws)
  | .construct x ys => do
    let v ← x
    let ws ← ys.mapM id
    I.act .construct (v :: ws)
  | .member x name => do
    let v ← x
    I.act .access [v, .string name]
  | .index x y => do
    let v ← x
    let w ← y
    I.act .access [v, w]
  | .array xs => do
    let vs ← xs.mapM id
    I.act .array vs
  | .object ps => do
    let vs ← ps.mapM (·.value)
    I.act (.object (ps.map fun p => (p.kind, p.key))) vs
  | _ => return .undefined

end Interpretation

namespace Node

variable {m : Type → Type} [Monad m]

/-- Evaluates an expression. -/
def eval (I : Interpretation m) (n : Node) : m Primitive :=
  I.layer (n.form.attach.map fun c => eval I c.1)
termination_by sizeOf n
decreasing_by exact sizeOf_lt_of_mem c.2

theorem eval_eq (I : Interpretation m) (n : Node) : n.eval I = I.layer (n.form.map (eval I)) := by
  have h := Form.map_map (eval I) Subtype.val n.form.attach
  rw [Form.attach_map_val] at h
  rw [eval, h]

end Node

def Form.isOrder {α : Type} : Form α → Bool
  | binary op _ _ => op.isOrder
  | _ => false

/-- `delete` yields a boolean, and `=` what it assigns. -/
structure Interpretation.Typical {m : Type → Type} [Monad m] (I : Interpretation m) : Prop where
  delete : ∀ v, ∃ b : m Bool, I.act (.unary .delete) [v] = Primitive.boolean <$> b
  assign : ∀ v w, ∃ x : m Unit, I.act (.assign .assign) [v, w] = (fun _ => w) <$> x

/-- With `comparisons` on, the rules take an order for the opposite of another, and know what type
`delete` and `=` yield. -/
def Options.Sound {m : Type → Type} [Monad m] (o : Options) (I : Interpretation m)
    (form : Form Node) : Prop :=
  o.on .comparisons = true → match form with
    | .binary op _ _ => op.isOrder = false
    | .unary op _ => op = .delete → I.Typical
    | .assign op _ _ => op = .assign → I.Typical
    | _ => True

theorem closed_sound {m : Type → Type} [Monad m] (o : Options) (I : Interpretation m) :
    Rule.Closed (Node.BuiltOf (o.Sound I)) where
  literal v span := by
    cases v <;> refine .mk rfl (fun _ => trivial) fun _ c hc => ?_ <;> cases hc
  not {x span} := by
    have hx : x ∈ (Form.unary .not x).children := by simp [Form.children]
    refine ⟨fun h => h.child rfl hx, fun h => .mk rfl (fun _ h => by cases h) fun _ c hc => ?_⟩
    obtain rfl := List.mem_singleton.1 hc
    exact h
  sequence {a b span} := by
    have ha : a ∈ (Form.sequence a b).children := by simp [Form.children]
    have hb : b ∈ (Form.sequence a b).children := by simp [Form.children]
    refine ⟨fun h => ⟨h.child rfl ha, h.child rfl hb⟩, fun h => ?_⟩
    refine .mk rfl (fun _ => trivial) fun _ c hc => ?_
    obtain rfl | rfl : c = a ∨ c = b := by simpa [Form.children] using hc
    · exact h.1
    · exact h.2
  conditional {c a b span} := by
    have hc : c ∈ (Form.conditional c a b).children := by simp [Form.children]
    have ha : a ∈ (Form.conditional c a b).children := by simp [Form.children]
    have hb : b ∈ (Form.conditional c a b).children := by simp [Form.children]
    refine ⟨fun h => ⟨h.child rfl hc, h.child rfl ha, h.child rfl hb⟩, fun h => ?_⟩
    refine .mk rfl (fun _ => trivial) fun _ d hd => ?_
    obtain rfl | rfl | rfl : d = c ∨ d = a ∨ d = b := by simpa [Form.children] using hd
    · exact h.1
    · exact h.2.1
    · exact h.2.2
  operands {op l r span} h :=
    ⟨h.child rfl (by simp [Form.children]), h.child rfl (by simp [Form.children])⟩
  logical {op l r span} hop hl hr := by
    refine .mk rfl (fun _ => ?_) fun _ c hc => ?_
    · cases op <;> first | rfl | cases hop
    · obtain rfl | rfl : c = l ∨ c = r := by simpa [Form.children] using hc
      · exact hl
      · exact hr
  replace {op op' l r l' r' span} h ho hl hr := by
    refine .mk rfl (fun hc => ?_) fun _ c hc => ?_
    · have horder : op.isOrder = false := h.holds hc
      change op'.isOrder = false
      by_contra hne
      rw [ho (by simpa using hne)] at horder
      cases horder
    · obtain rfl | rfl : c = l' ∨ c = r' := by simpa [Form.children] using hc
      · exact hl
      · exact hr

section Exact

variable {m : Type → Type} [Monad m] {I : Interpretation m} {o : Options} {span : Span} {n : Node}

theorem eval_binary {op : BinaryOperator} {l r : Node} :
    (⟨.binary op l r, span⟩ : Node).eval I = I.binary op (l.eval I) (r.eval I) := by
  rw [Node.eval_eq]
  rfl

theorem eval_unary {op : UnaryOperator} {x : Node} :
    (⟨.unary op x, span⟩ : Node).eval I = I.unary op (x.eval I) := by
  rw [Node.eval_eq]
  rfl

theorem eval_conditional {c a b : Node} :
    (⟨.conditional c a b, span⟩ : Node).eval I =
      c.eval I >>= fun v => if v.truthy then a.eval I else b.eval I := by
  rw [Node.eval_eq]
  rfl

theorem eval_sequence {a b : Node} :
    (⟨.sequence a b, span⟩ : Node).eval I = a.eval I >>= fun _ => b.eval I := by
  rw [Node.eval_eq]
  rfl

theorem eval_toNode (v : Primitive) : (v.toNode span).eval I = pure v := by
  cases v <;> rw [Node.eval_eq] <;> rfl

/-- An interpretation gives each expression a meaning. -/
theorem eval_eq_evaluate : n.eval I = n.evaluate (.usual (·.eval I) I.test) := by
  induction n using Node.induct with
  | h n ih =>
    obtain ⟨form, span⟩ := n
    cases form with
    | unary op x =>
      cases hop : op.isPure with
      | true =>
        rw [eval_unary, Node.evaluate_unary hop, ← ih x (by simp [Node.children, Form.children])]
        refine bind_congr fun v => ?_
        cases op <;> first | rfl | cases hop
      | false =>
        rw [Node.evaluate_unary_other hop]
        rfl
    | binary op x y =>
      rw [eval_binary, Node.evaluate_binary, ← ih x (by simp [Node.children, Form.children]),
        ← ih y (by simp [Node.children, Form.children])]
      cases op <;> rfl
    | conditional c x y =>
      rw [eval_conditional, Node.evaluate_conditional,
        ← ih c (by simp [Node.children, Form.children]),
        ← ih x (by simp [Node.children, Form.children]),
        ← ih y (by simp [Node.children, Form.children])]
    | sequence x y =>
      rw [eval_sequence, Node.evaluate_sequence, ← ih x (by simp [Node.children, Form.children]),
        ← ih y (by simp [Node.children, Form.children])]
    | _ => first | rfl | (rw [Node.eval_eq]; rfl)

variable [LawfulMonad m]

/-- A constant expression does nothing but yield its value. -/
theorem eval_of_constant? {v : Primitive} (h : n.constant? = .ok (some v)) :
    n.eval I = pure v := by
  induction n using Node.induct generalizing v with
  | h n ih =>
    obtain ⟨form, span⟩ := n
    cases form with
    | string | number | boolean | null | undefined =>
      cases h
      rw [Node.eval_eq]
      rfl
    | unary op x =>
      obtain ⟨u, hx, hv⟩ := Node.constant?_unary_some h
      have hex := ih x (by simp [Node.children, Form.children]) hx
      rw [eval_unary, hex, Interpretation.unary, pure_bind, hv]
    | binary op l r =>
      obtain ⟨u, w, hl, hr, hv⟩ := Node.constant?_binary_some h
      have hel := ih l (by simp [Node.children, Form.children]) hl
      have her := ih r (by simp [Node.children, Form.children]) hr
      rw [eval_binary, hel, her]
      cases op with
      | and | or =>
        obtain rfl := Option.some.inj hv
        rw [Interpretation.binary, pure_bind]
        split <;> rfl
      | _ => simp only [Interpretation.binary, Interpretation.combine, pure_bind, hv, Option.getD]
    | conditional c a b =>
      obtain ⟨u, hc, hv⟩ := Node.constant?_conditional_some h
      have hec := ih c (by simp [Node.children, Form.children]) hc
      rw [eval_conditional, hec, pure_bind]
      split at hv
      · rename_i hu
        rw [if_pos hu]
        exact ih a (by simp [Node.children, Form.children]) hv
      · rename_i hu
        rw [if_neg hu]
        exact ih b (by simp [Node.children, Form.children]) hv
    | _ =>
      simp only [Node.constant?] at h
      split at h <;> cases h

theorem eval_of_value? {v : Primitive} (h : o.value? n = some v) : n.eval I = pure v :=
  eval_of_constant? (Options.constant?_of_value? h)

theorem eval_folded : (o.folded n).eval I = n.eval I := by
  unfold Options.folded
  split
  · rename_i v hv
    rw [eval_toNode, eval_of_value? hv]
  · rfl

/-- `!0` and `!1` are the booleans. -/
theorem eval_shortenBoolean : (Rule.shortenBoolean o n).eval I = n.eval I := by
  unfold Rule.shortenBoolean
  split
  · rename_i b s
    split
    · have hb : Primitive.boolean (!(Primitive.number (if b then 0.0 else 1.0)).truthy) =
          .boolean b := Option.some.inj (Primitive.not_digit b)
      have hnumber (x : Float) : (⟨.number x, s⟩ : Node).eval I = pure (.number x) := by
        rw [Node.eval_eq]
        rfl
      rw [eval_unary, Interpretation.unary, hnumber, pure_bind, Node.eval_eq]
      exact congrArg pure hb
    · rfl
  · rfl

theorem eval_truthLiteral (b : Bool) :
    (Rule.truthLiteral o b span).eval I = pure (.boolean b) := by
  rw [Rule.truthLiteral, eval_shortenBoolean, Node.eval_eq]
  rfl

/-- An access by a name is an access by the text of the name. -/
theorem eval_index {subject property : Node} :
    (Rule.index o subject property span).eval I =
      (⟨.index subject property, span⟩ : Node).eval I := by
  unfold Rule.index
  split
  · split
    · rename_i name s _
      have hname : (⟨.string name, s⟩ : Node).eval I = pure (.string name) := by
        rw [Node.eval_eq]
        rfl
      rw [Node.eval_eq I ⟨.member _ _, _⟩, Node.eval_eq I ⟨.index _ _, _⟩]
      simp only [Form.map, Node.form_mk, Interpretation.layer, hname, pure_bind]
    · rfl
  · rfl

theorem truth_not : Primitive.truthy <$> (⟨.unary .not n, span⟩ : Node).eval I =
    (fun v => !v.truthy) <$> n.eval I := by
  rw [eval_eq_evaluate, eval_eq_evaluate, Meaning.truth_not]

theorem truth_not_not {s : Span} :
    Primitive.truthy <$> (⟨.unary .not ⟨.unary .not n, s⟩, span⟩ : Node).eval I =
      Primitive.truthy <$> n.eval I := by
  rw [eval_eq_evaluate, eval_eq_evaluate, Meaning.truth_not, Meaning.untruth_not]

/-- The negation of an expression has the same effects and the opposite truth. -/
theorem truth_negate {n' : Node} (hs : n.BuiltOf (o.Sound I))
    (h : n.negate (o.on .comparisons) = .ok n') :
    Primitive.truthy <$> n'.eval I = (fun v => !v.truthy) <$> n.eval I := by
  rw [eval_eq_evaluate, eval_eq_evaluate]
  exact Meaning.truth_negate h fun op x y s hat => Meaning.turns_usual (hs.negatedAt hat).holds

/-- An expression yields only what its parts let it yield. -/
theorem eval_mayYield (hc : o.on .comparisons = true) (hs : n.BuiltOf (o.Sound I)) :
    ∃ x : m {v // n.MayYield v}, n.eval I = Subtype.val <$> x := by
  induction n using Node.induct with
  | h n ih =>
    obtain ⟨form, span⟩ := n
    have hother (hform : form.isTransparent = false) :
        ∃ x : m {v // (⟨form, span⟩ : Node).MayYield v},
          (⟨form, span⟩ : Node).eval I = Subtype.val <$> x :=
      ⟨(fun v => ⟨v, .other hform⟩) <$> (⟨form, span⟩ : Node).eval I, by
        rw [Functor.map_map]; exact (id_map _).symm⟩
    cases form with
    | string s => exact ⟨pure ⟨_, .string⟩, by rw [map_pure, Node.eval_eq]; rfl⟩
    | number x => exact ⟨pure ⟨_, .number⟩, by rw [map_pure, Node.eval_eq]; rfl⟩
    | boolean b => exact ⟨pure ⟨_, .boolean⟩, by rw [map_pure, Node.eval_eq]; rfl⟩
    | null => exact ⟨pure ⟨_, .null⟩, by rw [map_pure, Node.eval_eq]; rfl⟩
    | undefined => exact ⟨pure ⟨_, .undefined⟩, by rw [map_pure, Node.eval_eq]; rfl⟩
    | unary op x =>
      have hcx : x ∈ (Form.unary op x).children := by simp [Form.children]
      obtain ⟨a, ha⟩ := ih x hcx (hs.child rfl hcx)
      by_cases hpure : op.isPure = true
      · have hvalue (u : Primitive) : ∃ v, op.eval? u = some v := by
          cases op <;> first | exact ⟨_, rfl⟩ | cases hpure
        choose f hf using hvalue
        refine ⟨(fun u => ⟨f u.1, .unary u.2 (hf u.1)⟩) <$> a, ?_⟩
        rw [eval_unary, Interpretation.unary, ha, Functor.map_map, bind_map_left, map_eq_pure_bind]
        simp only [hf]
      · by_cases hop : op = .delete
        · subst hop
          have htypical : I.Typical := hs.holds hc rfl
          choose b hb using htypical.delete
          refine ⟨a >>= fun u => (fun b => ⟨.boolean b, .delete⟩) <$> b u.1, ?_⟩
          rw [eval_unary, Interpretation.unary, ha, bind_map_left, map_bind]
          refine bind_congr fun u => ?_
          rw [Functor.map_map]
          exact hb u.1
        · exact hother (by simp [Form.isTransparent, hpure, hop])
    | binary op l r =>
      have hcl : l ∈ (Form.binary op l r).children := by simp [Form.children]
      have hcr : r ∈ (Form.binary op l r).children := by simp [Form.children]
      obtain ⟨a, ha⟩ := ih l hcl (hs.child rfl hcl)
      obtain ⟨b, hb⟩ := ih r hcr (hs.child rfl hcr)
      have hplain (hlog : op.isLogical = false)
          (h : ∀ u w, l.MayYield u → r.MayYield w →
            (⟨.binary op l r, span⟩ : Node).MayYield (I.combine op u w)) :
          ∃ x : m {v // (⟨.binary op l r, span⟩ : Node).MayYield v},
            (⟨.binary op l r, span⟩ : Node).eval I = Subtype.val <$> x := by
        refine ⟨a >>= fun u => (fun w => ⟨_, h u.1 w.1 u.2 w.2⟩) <$> b, ?_⟩
        have hbinary : I.binary op (l.eval I) (r.eval I) =
            l.eval I >>= fun u => r.eval I >>= fun w => pure (I.combine op u w) := by
          cases op <;> first | rfl | cases hlog
        rw [eval_binary, hbinary, ha, hb]
        simp only [bind_map_left, map_bind, Functor.map_map, bind_pure_comp]
      cases op with
      | and =>
        refine ⟨a >>= fun u => if ht : u.1.truthy = true then
          (fun v => ⟨v.1, .and_right u.2 ht v.2⟩) <$> b
          else pure ⟨u.1, .and_left u.2 (by simpa using ht)⟩, ?_⟩
        rw [eval_binary, Interpretation.binary, ha, hb, bind_map_left, map_bind]
        refine bind_congr fun u => ?_
        split
        · rw [Functor.map_map]
        · rw [map_pure]
      | or =>
        refine ⟨a >>= fun u => if ht : u.1.truthy = true then pure ⟨u.1, .or_left u.2 ht⟩
          else (fun v => ⟨v.1, .or_right u.2 (by simpa using ht) v.2⟩) <$> b, ?_⟩
        rw [eval_binary, Interpretation.binary, ha, hb, bind_map_left, map_bind]
        refine bind_congr fun u => ?_
        split
        · rw [map_pure]
        · rw [Functor.map_map]
      | inside | instanceOf => exact hplain rfl fun _ _ _ _ => .word rfl
      | _ => exact hplain rfl fun _ _ hu hw => .binary rfl hu hw rfl
    | conditional c x y =>
      have hcc : c ∈ (Form.conditional c x y).children := by simp [Form.children]
      have hcx : x ∈ (Form.conditional c x y).children := by simp [Form.children]
      have hcy : y ∈ (Form.conditional c x y).children := by simp [Form.children]
      obtain ⟨t, ht⟩ := ih c hcc (hs.child rfl hcc)
      obtain ⟨a, ha⟩ := ih x hcx (hs.child rfl hcx)
      obtain ⟨b, hb⟩ := ih y hcy (hs.child rfl hcy)
      refine ⟨t >>= fun u => if hu : u.1.truthy = true then
        (fun v => ⟨v.1, .consequent u.2 hu v.2⟩) <$> a
        else (fun v => ⟨v.1, .alternative u.2 (by simpa using hu) v.2⟩) <$> b, ?_⟩
      rw [eval_conditional, ht, ha, hb, bind_map_left, map_bind]
      refine bind_congr fun u => ?_
      split <;> rw [Functor.map_map]
    | sequence x y =>
      have hcy : y ∈ (Form.sequence x y).children := by simp [Form.children]
      obtain ⟨b, hb⟩ := ih y hcy (hs.child rfl hcy)
      refine ⟨x.eval I >>= fun _ => (fun v => ⟨v.1, .sequence v.2⟩) <$> b, ?_⟩
      simp only [eval_sequence, hb, map_bind, Functor.map_map]
    | assign op x y =>
      by_cases hop : op = .assign
      · subst hop
        have hcy : y ∈ (Form.assign .assign x y).children := by simp [Form.children]
        have htypical : I.Typical := hs.holds hc rfl
        choose z hz using htypical.assign
        obtain ⟨b, hb⟩ := ih y hcy (hs.child rfl hcy)
        refine ⟨x.eval I >>= fun v => b >>= fun w => (fun _ => ⟨w.1, .assign w.2⟩) <$> z v w.1, ?_⟩
        rw [Node.eval_eq]
        change (x.eval I >>= fun v => y.eval I >>= fun w => I.act (.assign .assign) [v, w]) = _
        simp only [hb, bind_map_left, map_bind, hz, Functor.map_map]
      · exact hother (by cases op <;> first | rfl | exact absurd rfl hop)
    | _ => exact hother rfl

/-- Equality may be asked loosely of operands of one type. -/
theorem eval_loosen {op : BinaryOperator} {l r : Node} (hl : l.BuiltOf (o.Sound I))
    (hr : r.BuiltOf (o.Sound I)) :
    (⟨.binary (Rule.loosen o op l r) l r, span⟩ : Node).eval I =
      (⟨.binary op l r, span⟩ : Node).eval I := by
  have hsame (hon : (o.on .comparisons && Rule.sameType l r) = true) (f : Bool → Primitive) :
      (l.eval I >>= fun v => r.eval I >>= fun w => pure (f (v.looseEq w))) =
        l.eval I >>= fun v => r.eval I >>= fun w => pure (f (v.strictEq w)) := by
    obtain ⟨hc, ht⟩ : o.on .comparisons = true ∧ Rule.sameType l r = true := by simpa using hon
    obtain ⟨a, ha⟩ := eval_mayYield hc hl
    obtain ⟨b, hb⟩ := eval_mayYield hc hr
    simp only [ha, hb, bind_map_left]
    refine bind_congr fun v => bind_congr fun w => ?_
    rw [Rule.looseEq_of_sameType ht v.2 w.2]
  unfold Rule.loosen
  split
  · split
    · rename_i hon
      rw [eval_binary, eval_binary]
      exact hsame hon .boolean
    · rfl
  · split
    · rename_i hon
      rw [eval_binary, eval_binary]
      exact hsame hon fun b => .boolean !b
    · rfl
  · rfl

/-- A choice is made as before, whichever way it is written. -/
theorem eval_chosen {c a b : Node} (hc : c.BuiltOf (o.Sound I))
    (h : Rule.Chosen o c a b span n) :
    n.eval I = (⟨.conditional c a b, span⟩ : Node).eval I := by
  cases h with
  | known _ hv =>
    rw [eval_conditional, eval_of_value? hv, pure_bind]
    split <;> rfl
  | upright => rfl
  | @reversed c' _ _ hn =>
    have hbool (x y : m Primitive) : (c'.eval I >>= fun v => if v.truthy then x else y) =
        Primitive.truthy <$> c'.eval I >>= fun t => if t then x else y := by
      rw [bind_map_left]
    rw [eval_conditional, eval_conditional, hbool, truth_negate hc hn, bind_map_left]
    refine bind_congr fun v => ?_
    cases v.truthy <;> rfl

/-- Where its value is asked, `&&` and `||` are at most folded. -/
theorem eval_combined {op : BinaryOperator} {l r : Node} (hop : op.isLogical = true)
    (h : Rule.Combined o false op l r span n) :
    n.eval I = (⟨.binary op l r, span⟩ : Node).eval I := by
  cases h with
  | decided ht => cases ht
  | right ht => cases ht
  | left ht => cases ht
  | folded =>
    have hloosen : Rule.loosen o op l r = op := by
      cases op <;> first | rfl | cases hop
    rw [eval_shortenBoolean, eval_folded, hloosen]

end Exact

end ScriptMinifier
