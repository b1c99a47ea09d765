import ScriptMinifier.Proofs.Rules

namespace ScriptMinifier

/-- What those expressions mean whose meaning is given from elsewhere; the monad holds the effects. -/
structure Meaning (m : Type → Type) where
  /-- What an expression of another kind does and yields. -/
  other : Node → m Primitive
  /-- How a binary operator answers once it has the values of both operands. -/
  answer : BinaryOperator → Primitive → Primitive → m Primitive

variable {m : Type → Type} [Monad m]

def Meaning.binary (M : Meaning m) (op : BinaryOperator) (x y : m Primitive) : m Primitive :=
  match op with
  | .and => do
    let v ← x
    if v.truthy then y else return v
  | .or => do
    let v ← x
    if v.truthy then return v else y
  | op => do
    let v ← x
    let w ← y
    M.answer op v w

namespace Node

def evaluate (M : Meaning m) : Node → m Primitive
  | ⟨.string s, _⟩ => return .string s
  | ⟨.number x, _⟩ => return .number x
  | ⟨.boolean b, _⟩ => return .boolean b
  | ⟨.null, _⟩ => return .null
  | ⟨.undefined, _⟩ => return .undefined
  | ⟨.unary op x, span⟩ =>
    if op.isPure then do
      let v ← evaluate M x
      return (op.eval? v).getD .undefined
    else M.other ⟨.unary op x, span⟩
  | ⟨.binary op x y, _⟩ => M.binary op (evaluate M x) (evaluate M y)
  | ⟨.conditional c x y, _⟩ => do
    let v ← evaluate M c
    if v.truthy then evaluate M x else evaluate M y
  | ⟨.sequence x y, _⟩ => do
    let _ ← evaluate M x
    evaluate M y
  | n => M.other n

/-- `n.NegatedAt m`: to negate `n` is to negate `m`, at the place where it stands in `n`. -/
inductive NegatedAt : Node → Node → Prop
  | self {n : Node} : NegatedAt n n
  | second {x y m : Node} {span : Span} : y.NegatedAt m → NegatedAt ⟨.sequence x y, span⟩ m
  | consequent {c x y m : Node} {span : Span} : x.NegatedAt m →
    NegatedAt ⟨.conditional c x y, span⟩ m
  | alternative {c x y m : Node} {span : Span} : y.NegatedAt m →
    NegatedAt ⟨.conditional c x y, span⟩ m
  | left {op : BinaryOperator} {x y m : Node} {span : Span} : op.isLogical = true →
    x.NegatedAt m → NegatedAt ⟨.binary op x y, span⟩ m
  | right {op : BinaryOperator} {x y m : Node} {span : Span} : op.isLogical = true →
    y.NegatedAt m → NegatedAt ⟨.binary op x y, span⟩ m

end Node

/-- Operators come in pairs of opposites. -/
theorem BinaryOperator.isLogical_of_opposite? {c : Bool} {op op' : BinaryOperator}
    (h : op.opposite? c = some op') : op.isLogical = op'.isLogical := by
  cases op <;> cases c <;> cases h <;> rfl

theorem BinaryOperator.isOrder_of_opposite? {c : Bool} {op op' : BinaryOperator}
    (h : op.opposite? c = some op') : op.isOrder = op'.isOrder := by
  cases op <;> cases c <;> cases h <;> rfl

namespace Node

section Faults

variable {c : Bool} {n : Node} {span : Span} {f : Fault}

theorem isLogical_of_negate_error {op : BinaryOperator} {x y : Node}
    (h : (⟨.binary op x y, span⟩ : Node).negate c = .error f) : op.isLogical = true := by
  rw [negate_binary_eq] at h
  split at h
  · cases h
  · rename_i op' hop
    split at h
    · rename_i hlog
      rwa [BinaryOperator.isLogical_of_opposite? hop]
    · cases h

/-- `&&` and `||` have no negation if one of their operands has none. -/
theorem negate_logical_error {op : BinaryOperator} {x y : Node} (hop : op.isLogical = true)
    (h : (∃ f, x.negate c = .error f) ∨ ∃ f, y.negate c = .error f) :
    ∃ f, (⟨.binary op x y, span⟩ : Node).negate c = .error f := by
  rw [negate_binary_eq]
  cases op with
  | and | or =>
    simp only [BinaryOperator.opposite?, BinaryOperator.isLogical, if_true]
    rcases h with ⟨f, hf⟩ | ⟨f, hf⟩
    · rw [hf]
      exact ⟨f, rfl⟩
    · rw [hf]
      cases x.negate c <;> exact ⟨_, rfl⟩
  | _ => cases hop

/-- A fault of negation tells of a statement that would have to be negated. -/
theorem negatedAt_of_negate_error (h : n.negate c = .error f) :
    ∃ s, n.NegatedAt s ∧ s.isStatement = true ∧ f = s.negationFault := by
  induction n using Node.induct with
  | h n ih =>
    obtain ⟨form, span⟩ := n
    cases form with
    | sequence x y =>
      obtain ⟨s, hs, hf⟩ := ih y (by simp [children, Form.children]) (negate_sequence_error h)
      exact ⟨s, .second hs, hf⟩
    | conditional c x y =>
      rcases negate_conditional_error h with h | h
      · obtain ⟨s, hs, hf⟩ := ih x (by simp [children, Form.children]) h
        exact ⟨s, .consequent hs, hf⟩
      · obtain ⟨s, hs, hf⟩ := ih y (by simp [children, Form.children]) h
        exact ⟨s, .alternative hs, hf⟩
    | binary op x y =>
      have hop := isLogical_of_negate_error h
      rcases negate_binary_error h with h | h
      · obtain ⟨s, hs, hf⟩ := ih x (by simp [children, Form.children]) h
        exact ⟨s, .left hop hs, hf⟩
      · obtain ⟨s, hs, hf⟩ := ih y (by simp [children, Form.children]) h
        exact ⟨s, .right hop hs, hf⟩
    | unary op x => cases op <;> cases h
    | _ => first | exact ⟨_, .self, rfl, (Except.error.inj h).symm⟩ | cases h

/-- No statement is negated. -/
theorem negate_error_of_negatedAt {s : Node} (h : n.NegatedAt s) (hs : s.isStatement = true) :
    ∃ f, n.negate c = .error f := by
  induction h with
  | @self n =>
    obtain ⟨form, span⟩ := n
    cases form <;> first | exact ⟨_, rfl⟩ | cases hs
  | second _ ih =>
    obtain ⟨f, hf⟩ := ih hs
    exact ⟨f, by rw [negate_sequence_eq, hf]; rfl⟩
  | consequent _ ih =>
    obtain ⟨f, hf⟩ := ih hs
    exact ⟨f, by rw [negate_conditional_eq, hf]; rfl⟩
  | @alternative _ x _ _ _ _ ih =>
    obtain ⟨f, hf⟩ := ih hs
    rw [negate_conditional_eq, hf]
    cases x.negate c <;> exact ⟨_, rfl⟩
  | left hop _ ih => exact negate_logical_error hop (.inl (ih hs))
  | right hop _ ih => exact negate_logical_error hop (.inr (ih hs))

end Faults

section Evaluation

variable {M : Meaning m} {n : Node} {span : Span}

theorem evaluate_unary {op : UnaryOperator} {x : Node} (hop : op.isPure = true) :
    (⟨.unary op x, span⟩ : Node).evaluate M =
      x.evaluate M >>= fun v => pure ((op.eval? v).getD .undefined) :=
  if_pos hop

theorem evaluate_unary_other {op : UnaryOperator} {x : Node} (hop : op.isPure = false) :
    (⟨.unary op x, span⟩ : Node).evaluate M = M.other ⟨.unary op x, span⟩ :=
  if_neg (by simp [hop])

theorem evaluate_binary {op : BinaryOperator} {x y : Node} :
    (⟨.binary op x y, span⟩ : Node).evaluate M = M.binary op (x.evaluate M) (y.evaluate M) := rfl

theorem evaluate_conditional {c x y : Node} :
    (⟨.conditional c x y, span⟩ : Node).evaluate M =
      c.evaluate M >>= fun v => if v.truthy then x.evaluate M else y.evaluate M := rfl

theorem evaluate_sequence {x y : Node} :
    (⟨.sequence x y, span⟩ : Node).evaluate M = x.evaluate M >>= fun _ => y.evaluate M := rfl

end Evaluation

/-- What is negated in an expression is built of the same forms. -/
theorem BuiltOf.negatedAt {P : Form Node → Prop} {n m : Node} (h : n.BuiltOf P)
    (hm : n.NegatedAt m) : m.BuiltOf P := by
  induction hm with
  | self => exact h
  | second _ ih | consequent _ ih | alternative _ ih | left _ _ ih | right _ _ ih =>
    exact ih (h.child rfl (by simp [Form.children]))

end Node

namespace Meaning

/-- Operators answer as for constants, `in` and `instanceof` by a relation that is given. -/
def usual (other : Node → m Primitive) (test : BinaryOperator → Primitive → Primitive → Bool) :
    Meaning m where
  other := other
  answer op v w := return (op.eval? v w).getD (.boolean (test op v w))

variable [LawfulMonad m] {M : Meaning m} {x y : m Primitive}

/-- Where negation turns an operator around, its opposite answers the opposite. -/
def Turns (M : Meaning m) (c : Bool) (op : BinaryOperator) : Prop :=
  ∀ op', op.opposite? c = some op' → op'.isLogical = false → ∀ v w,
    Primitive.truthy <$> M.answer op' v w = (fun u => !u.truthy) <$> M.answer op v w

omit [LawfulMonad m] in
theorem binary_of_not_isLogical {op : BinaryOperator} (h : op.isLogical = false) :
    M.binary op x y = x >>= fun v => y >>= fun w => M.answer op v w := by
  cases op <;> first | rfl | cases h

omit [LawfulMonad m] in
theorem binary_and : M.binary .and x y = x >>= fun v => if v.truthy then y else pure v := rfl

omit [LawfulMonad m] in
theorem binary_or : M.binary .or x y = x >>= fun v => if v.truthy then pure v else y := rfl

theorem truth_and : Primitive.truthy <$> M.binary .and x y =
    Primitive.truthy <$> x >>= fun t => if t then Primitive.truthy <$> y else pure false := by
  rw [binary_and, map_bind, bind_map_left]
  refine bind_congr fun v => ?_
  cases hv : v.truthy <;> simp [hv]

theorem truth_or : Primitive.truthy <$> M.binary .or x y =
    Primitive.truthy <$> x >>= fun t => if t then pure true else Primitive.truthy <$> y := by
  rw [binary_or, map_bind, bind_map_left]
  refine bind_congr fun v => ?_
  cases hv : v.truthy <;> simp [hv]

theorem untruth_and : (fun v => !v.truthy) <$> M.binary .and x y =
    (fun v => !v.truthy) <$> x >>= fun t =>
      if t then pure true else (fun v => !v.truthy) <$> y := by
  rw [binary_and, map_bind, bind_map_left]
  refine bind_congr fun v => ?_
  cases hv : v.truthy <;> simp [hv]

theorem untruth_or : (fun v => !v.truthy) <$> M.binary .or x y =
    (fun v => !v.truthy) <$> x >>= fun t =>
      if t then (fun v => !v.truthy) <$> y else pure false := by
  rw [binary_or, map_bind, bind_map_left]
  refine bind_congr fun v => ?_
  cases hv : v.truthy <;> simp [hv]

variable {n : Node} {span : Span}

theorem truth_not : Primitive.truthy <$> (⟨.unary .not n, span⟩ : Node).evaluate M =
    (fun v => !v.truthy) <$> n.evaluate M := by
  rw [Node.evaluate_unary rfl, map_bind, map_eq_pure_bind]
  refine bind_congr fun v => ?_
  rw [map_pure]
  rfl

theorem untruth_not : (fun v => !v.truthy) <$> (⟨.unary .not n, span⟩ : Node).evaluate M =
    Primitive.truthy <$> n.evaluate M := by
  rw [Node.evaluate_unary rfl, map_bind, map_eq_pure_bind]
  refine bind_congr fun v => ?_
  rw [map_pure]
  simp [UnaryOperator.eval?, Primitive.truthy]

/-- The negation of an expression has the same effects and the opposite truth. -/
theorem truth_negate {c : Bool} {n' : Node} (h : n.negate c = .ok n')
    (hturn : ∀ op x y s, n.NegatedAt ⟨.binary op x y, s⟩ → M.Turns c op) :
    Primitive.truthy <$> n'.evaluate M = (fun v => !v.truthy) <$> n.evaluate M := by
  induction n using Node.induct generalizing n' with
  | h n ih =>
    obtain ⟨form, span⟩ := n
    cases form with
    | sequence x y =>
      obtain ⟨y', hy, rfl⟩ := Node.negate_sequence h
      have hty := ih y (by simp [Node.children, Form.children]) hy
        fun op a b s hs => hturn op a b s (.second hs)
      simp only [Node.evaluate_sequence, map_bind, hty]
    | conditional t x y =>
      obtain ⟨x', y', hx, hy, rfl⟩ := Node.negate_conditional h
      have htx := ih x (by simp [Node.children, Form.children]) hx
        fun op a b s hs => hturn op a b s (.consequent hs)
      have hty := ih y (by simp [Node.children, Form.children]) hy
        fun op a b s hs => hturn op a b s (.alternative hs)
      rw [Node.evaluate_conditional, Node.evaluate_conditional, map_bind, map_bind]
      refine bind_congr fun v => ?_
      split
      · exact htx
      · exact hty
    | unary op x =>
      obtain ⟨rfl, rfl⟩ | rfl := Node.negate_unary h
      · exact untruth_not.symm
      · exact truth_not
    | binary op x y =>
      obtain rfl | ⟨op', hop, hlog, rfl⟩ | ⟨op', x', y', hop, hlog, hx, hy, rfl⟩ :=
        Node.negate_binary h
      · exact truth_not
      · have hanswer := hturn op x y span .self op' hop hlog
        have hlog' : op.isLogical = false := by rwa [BinaryOperator.isLogical_of_opposite? hop]
        rw [Node.evaluate_binary, Node.evaluate_binary, binary_of_not_isLogical hlog,
          binary_of_not_isLogical hlog']
        simp only [map_bind, hanswer]
      · have hlog' : op.isLogical = true := by rwa [BinaryOperator.isLogical_of_opposite? hop]
        have htx := ih x (by simp [Node.children, Form.children]) hx
          fun op a b s hs => hturn op a b s (.left hlog' hs)
        have hty := ih y (by simp [Node.children, Form.children]) hy
          fun op a b s hs => hturn op a b s (.right hlog' hs)
        rw [Node.evaluate_binary, Node.evaluate_binary]
        cases op with
        | and =>
          obtain rfl := Option.some.inj hop
          rw [truth_or, untruth_and, htx, hty]
        | or =>
          obtain rfl := Option.some.inj hop
          rw [truth_and, untruth_or, htx, hty]
        | _ => cases hlog'
    | _ =>
      first
        | (obtain rfl := Except.ok.inj h; exact truth_not)
        | cases h

/-- Equality always has an opposite; an order has none, for neither it nor the operator that
negation puts in its place holds of what is not a number. -/
theorem turns_usual {other : Node → m Primitive}
    {test : BinaryOperator → Primitive → Primitive → Bool} {c : Bool} {op : BinaryOperator}
    (h : c = true → op.isOrder = false) : (usual other test).Turns c op := by
  intro op' hop hlog v w
  simp only [usual, map_pure]
  congr 1
  cases op <;> cases c <;> first
    | (cases hop; done)
    | (cases hop; cases hlog; done)
    | (cases h rfl; done)
    | (cases hop; simp [BinaryOperator.eval?, Primitive.truthy])

end Meaning

end ScriptMinifier
