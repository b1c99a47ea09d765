import ScriptMinifier.Proofs.Preservation

namespace ScriptMinifier

/-- An operand that is not a number is before nothing, and nothing is before it. -/
theorem Primitive.less?_eq_none_comm {v w : Primitive} :
    v.less? w = none ↔ w.less? v = none := by
  cases v <;> cases w <;> simp [less?, or_comm]

/-- An order and the one that negation puts in its place answer the opposite if they answer. -/
theorem BinaryOperator.truthy_of_opposite? {c : Bool} {op op' : BinaryOperator}
    {v w : Primitive} (hop : op.opposite? c = some op') (ho : op.isOrder = true)
    (hless : v.less? w ≠ none) : ∃ u u', op.eval? v w = some u ∧ op'.eval? v w = some u' ∧
      u'.truthy = !u.truthy := by
  obtain ⟨a, ha⟩ := Option.ne_none_iff_exists'.1 hless
  obtain ⟨b, hb⟩ := Option.ne_none_iff_exists'.1 fun h => hless (Primitive.less?_eq_none_comm.1 h)
  cases op <;> first
    | (cases ho; done)
    | (cases c <;> cases hop; simp [eval?, ha, hb, Primitive.truthy])

namespace Meaning

variable {σ : Type}

/-- The same meaning where computations may fail. An order fails on values that it does not
order. -/
def guarded (M : Meaning (StateM σ)) : Meaning (StateT σ Option) where
  other n := fun s => some ((M.other n).run s)
  answer op v w :=
    if op.isOrder = true ∧ v.less? w = none then fun _ => none
    else fun s => some ((M.answer op v w).run s)

variable {other : Node → StateM σ Primitive}
  {test : BinaryOperator → Primitive → Primitive → Bool} {c : Bool} {op : BinaryOperator}

/-- Every operator that negation turns around has an opposite under guard. -/
theorem turns_guarded : (usual other test).guarded.Turns c op := by
  intro op' hop hlog v w
  have horder := BinaryOperator.isOrder_of_opposite? hop
  simp only [guarded, ← horder]
  cases ho : op.isOrder with
  | false =>
    have hturn : (usual (fun _ _ => none) test : Meaning (StateT σ Option)).Turns c op :=
      turns_usual fun _ => ho
    simp only [Bool.false_eq_true, false_and, if_false]
    exact hturn op' hop hlog v w
  | true =>
    by_cases hless : v.less? w = none
    · simp only [hless, and_self, if_true]
      rfl
    · obtain ⟨u, u', hu, hu', htruth⟩ := BinaryOperator.truthy_of_opposite? hop ho hless
      simp only [hless, and_false, if_false, usual, hu, hu', Option.getD_some]
      change (pure u'.truthy : StateT σ Option Bool) = pure (!u.truthy)
      rw [htruth]

end Meaning

namespace Comparison

variable {m m' : Type → Type} [Monad m] [Monad m'] (K : Comparison m m') {M : Meaning m}
  {M' : Meaning m'}

/-- Expressions do related things if what is given of their meaning does. -/
theorem rel_evaluate (hother : ∀ n, K.rel Eq (M.other n) (M'.other n))
    (hanswer : ∀ op v w, K.rel Eq (M.answer op v w) (M'.answer op v w)) (n : Node) :
    K.rel Eq (n.evaluate M) (n.evaluate M') := by
  induction n using Node.induct with
  | h n ih =>
    obtain ⟨form, span⟩ := n
    cases form with
    | string | number | boolean | null | undefined => exact K.rel_pure rfl
    | unary op x =>
      cases hop : op.isPure with
      | true =>
        rw [Node.evaluate_unary hop, Node.evaluate_unary hop]
        refine K.rel_bind (ih x (by simp [Node.children, Form.children])) fun v w hvw => ?_
        subst hvw
        exact K.rel_pure rfl
      | false =>
        rw [Node.evaluate_unary_other hop, Node.evaluate_unary_other hop]
        exact hother _
    | binary op x y =>
      have hx := ih x (by simp [Node.children, Form.children])
      have hy := ih y (by simp [Node.children, Form.children])
      rw [Node.evaluate_binary, Node.evaluate_binary]
      cases op with
      | and =>
        refine K.rel_bind hx fun v w hvw => ?_
        subst hvw
        split
        · exact hy
        · exact K.rel_pure rfl
      | or =>
        refine K.rel_bind hx fun v w hvw => ?_
        subst hvw
        split
        · exact K.rel_pure rfl
        · exact hy
      | _ =>
        refine K.rel_bind hx fun v w hvw => K.rel_bind hy fun v' w' hvw' => ?_
        subst hvw hvw'
        exact hanswer _ _ _
    | conditional c x y =>
      rw [Node.evaluate_conditional, Node.evaluate_conditional]
      refine K.rel_bind (ih c (by simp [Node.children, Form.children])) fun v w hvw => ?_
      subst hvw
      split
      · exact ih x (by simp [Node.children, Form.children])
      · exact ih y (by simp [Node.children, Form.children])
    | sequence x y =>
      rw [Node.evaluate_sequence, Node.evaluate_sequence]
      exact K.rel_bind (ih x (by simp [Node.children, Form.children])) fun _ _ _ =>
        ih y (by simp [Node.children, Form.children])
    | _ => exact hother _

end Comparison

/-- What is done under guard is done without it. -/
theorem Meaning.run_of_guarded {σ : Type} {M : Meaning (StateM σ)} {n : Node} {s : σ}
    {r : Primitive × σ} (h : (n.evaluate M.guarded).run s = some r) :
    (n.evaluate M).run s = r := by
  have hother (n : Node) :
      (Comparison.unfailing σ).rel Eq (M.guarded.other n) (M.other n) := by
    intro s r h
    obtain rfl := Option.some.inj h
    exact ⟨rfl, rfl⟩
  have hanswer (op : BinaryOperator) (v w : Primitive) :
      (Comparison.unfailing σ).rel Eq (M.guarded.answer op v w) (M.answer op v w) := by
    intro s r h
    simp only [guarded] at h
    split at h
    · cases h
    · obtain rfl := Option.some.inj h
      exact ⟨rfl, rfl⟩
  obtain ⟨hvalue, hstate⟩ := (Comparison.unfailing σ).rel_evaluate hother hanswer n s r h
  exact Prod.ext hvalue.symm hstate.symm

open Meaning in
/-- The negation of an expression leaves the state that the expression leaves and has the opposite
truth, whatever expressions of the kinds that are left open do and yield. With `c`, orders are
turned around, so each one that is evaluated has to order the values of its operands. There is no
negation just if a statement would have to be negated, and the fault names such a statement. -/
theorem Node.negate_opposes (c : Bool) (n : Node) :
    (∀ n', n.negate c = .ok n' →
      ∀ (σ : Type) (other : Node → StateM σ Primitive)
        (test : BinaryOperator → Primitive → Primitive → Bool) (s : σ),
        (c = true → ((n.evaluate (usual other test).guarded).run s).isSome = true) →
          ((n'.evaluate (usual other test)).run s).2 = ((n.evaluate (usual other test)).run s).2 ∧
          ((n'.evaluate (usual other test)).run s).1.truthy =
            !((n.evaluate (usual other test)).run s).1.truthy) ∧
    ((∃ f, n.negate c = .error f) ↔ ∃ m, n.NegatedAt m ∧ m.isStatement = true) ∧
    ∀ f, n.negate c = .error f →
      ∃ m, n.NegatedAt m ∧ m.isStatement = true ∧ f = m.negationFault := by
  refine ⟨fun n' h σ other test s hguard => ?_, ⟨?_, ?_⟩, fun f hf => negatedAt_of_negate_error hf⟩
  · cases c with
    | false =>
      have htruth := Meaning.truth_negate (M := usual other test) h fun _ _ _ _ _ =>
        turns_usual nofun
      have hrun : (((n'.evaluate (usual other test)).run s).1.truthy,
          ((n'.evaluate (usual other test)).run s).2) =
          (!((n.evaluate (usual other test)).run s).1.truthy,
            ((n.evaluate (usual other test)).run s).2) :=
        congrArg (fun x : StateM σ Bool => x.run s) htruth
      exact (Prod.mk.inj hrun).symm
    | true =>
      obtain ⟨r, hr⟩ := Option.isSome_iff_exists.1 (hguard rfl)
      have htruth := Meaning.truth_negate (M := (usual other test).guarded) h
        fun _ _ _ _ _ => turns_guarded
      have hrun := congrArg (fun x : StateT σ Option Bool => x.run s) htruth
      simp only [StateT.run_map, hr] at hrun
      obtain ⟨r', hr', heq⟩ := Option.map_eq_some_iff.1 hrun
      rw [run_of_guarded hr, run_of_guarded hr']
      exact (Prod.mk.inj heq).symm
  · rintro ⟨f, hf⟩
    obtain ⟨m, hm, hs, -⟩ := negatedAt_of_negate_error hf
    exact ⟨m, hm, hs⟩
  · rintro ⟨m, hm, hs⟩
    exact negate_error_of_negatedAt hm hs

/-- `f() && a < 2` and `!f() || a >= 2`, where calls and names leave a trace and yield 1. -/
theorem Node.negate_opposes_order :
    let e := Build.binary .and (Build.call "f" []) (Build.binary .lt (Build.identifier "a")
      (Build.number 2))
    let e' := Build.binary .or (Build.not (Build.call "f" [])) (Build.binary .ge
      (Build.identifier "a") (Build.number 2))
    let other : Node → StateM (List String) Primitive := fun n s => (.number 1, s ++ [n.kindName])
    let M : Meaning (StateM (List String)) := .usual other fun _ _ _ => true
    e.negate true = .ok e' ∧ ((e.evaluate M.guarded).run []).isSome = true ∧
    ((e'.evaluate M).run []).2 = ((e.evaluate M).run []).2 ∧
    ((e'.evaluate M).run []).1.truthy = !((e.evaluate M).run []).1.truthy := by
  intro e e' other M
  have hnegate : e.negate true = .ok e' := rfl
  have hguard : ((e.evaluate M.guarded).run []).isSome = true := by decide +kernel
  exact ⟨hnegate, hguard, (Node.negate_opposes true e).1 e' hnegate _ other (fun _ _ _ => true) []
    fun _ => hguard⟩

end ScriptMinifier
