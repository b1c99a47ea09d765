import ScriptMinifier.Proofs.Execution

namespace ScriptMinifier

open Interpretation

variable {m : Type → Type} [Monad m] [LawfulMonad m] {I : Interpretation m} {o : Options} {k : Nat}
  {span : Span} {n : Node} {ns : List Node}

namespace Interpretation

variable {x y z : m Completion}

theorem follow_assoc : follow (follow x y) z = follow x (follow y z) := by
  rw [follow, follow, follow, bind_assoc]
  refine bind_congr fun c => ?_
  cases c with
  | normal => rfl
  | _ => rw [pure_bind]

@[simp] theorem follow_pure_normal : follow (pure .normal) y = y := by
  rw [follow, pure_bind]

@[simp] theorem follow_normal : follow x (pure .normal) = x := by
  conv => rhs; rw [← bind_pure x]
  refine bind_congr fun c => ?_
  cases c <;> rfl

theorem inOrder_append (xs ys : List (m Completion)) :
    inOrder (xs ++ ys) = follow (inOrder xs) (inOrder ys) := by
  induction xs with
  | nil => exact follow_pure_normal.symm
  | cons x xs ih =>
    change follow x (inOrder (xs ++ ys)) = follow (follow x (inOrder xs)) (inOrder ys)
    rw [ih, follow_assoc]

end Interpretation

namespace Node

omit [LawfulMonad m] in
theorem run_eq (hs : n.isStatement = true) :
    n.run I k = I.perform k (n.form.map fun c => ⟨fun _ => c.eval I, c.run I k⟩) :=
  exec_statement hs

/-- Runs a list of statements. -/
def runAll (I : Interpretation m) (k : Nat) (ns : List Node) : m Completion :=
  inOrder (ns.map (run I k))

omit [LawfulMonad m] in
theorem run_empty : (empty span).run I k = pure .normal := run_eq rfl

omit [LawfulMonad m] in
theorem run_expression {e : Node} :
    (⟨.expression e, span⟩ : Node).run I k = e.eval I >>= fun _ => pure .normal := run_eq rfl

omit [LawfulMonad m] in
theorem run_exit {kind : ExitKind} {e : Node} :
    (⟨.exit kind (some e), span⟩ : Node).run I k =
      e.eval I >>= fun v => pure (.exit kind (some v)) := run_eq rfl

omit [LawfulMonad m] in
theorem run_block : (⟨.block ns, span⟩ : Node).run I k = runAll I k ns := by
  rw [run_eq rfl]
  change inOrder ((ns.map _).map _) = _
  rw [List.map_map]
  rfl

omit [LawfulMonad m] in
theorem run_program : (⟨.program ns, span⟩ : Node).run I k = runAll I k ns := by
  rw [run_eq rfl]
  change inOrder ((ns.map _).map _) = _
  rw [List.map_map]
  rfl

omit [LawfulMonad m] in
theorem run_branch {c x : Node} {y? : Option Node} :
    (⟨.branch c x y?, span⟩ : Node).run I k = c.eval I >>= fun v =>
      if v.truthy then x.run I k else orNothing (y?.map (run I k)) := by
  rw [run_eq rfl]
  cases y? <;> rfl

end Node

namespace Statements

open Node (runAll)

omit [LawfulMonad m] in
theorem runAll_cons : runAll I k (n :: ns) = follow (n.run I k) (runAll I k ns) := rfl

theorem runAll_append {ms : List Node} :
    runAll I k (ms ++ ns) = follow (runAll I k ms) (runAll I k ns) := by
  rw [runAll, List.map_append, inOrder_append]
  rfl

theorem runAll_flatten : runAll I k (flatten ns) = runAll I k ns := by
  induction ns with
  | nil => rfl
  | cons n ns ih =>
    obtain ⟨form, span⟩ := n
    cases form with
    | block body =>
      change runAll I k (body ++ flatten ns) = _
      rw [runAll_append, ih, runAll_cons, Node.run_block]
    | empty =>
      change runAll I k (flatten ns) = follow ((Node.empty span).run I k) (runAll I k ns)
      rw [ih, Node.run_empty, follow_pure_normal]
    | _ => exact congrArg (follow _) ih

/-- Nothing comes after a jump. -/
theorem follow_of_isJump (h : n.isJump = true) (x : m Completion) :
    follow (n.run I k) x = n.run I k := by
  obtain ⟨form, span⟩ := n
  cases form with
  | exit kind e? =>
    cases e? with
    | none =>
      rw [Node.run_eq rfl]
      exact pure_bind _ _
    | some e =>
      rw [Node.run_exit, follow, bind_assoc]
      refine bind_congr fun v => ?_
      rw [pure_bind]
  | jump kind label =>
    rw [Node.run_eq rfl]
    exact pure_bind _ _
  | _ => cases h

theorem runAll_pruned : runAll I k (pruned ns) = runAll I k ns := by
  induction ns with
  | nil => rfl
  | cons n ns ih =>
    rw [pruned]
    split
    · rename_i hj
      rw [runAll_cons, runAll_cons, follow_of_isJump hj, follow_of_isJump hj]
    · rw [runAll_cons, runAll_cons, ih]

/-- The values of two expressions in a row and of their sequence alike are not looked at. -/
theorem runAll_sequence {a b : Node} {s t : Span} :
    runAll I k (⟨.expression ⟨.sequence a b, s⟩, t⟩ :: ns) =
      runAll I k (⟨.expression a, s⟩ :: ⟨.expression b, span⟩ :: ns) := by
  simp only [runAll_cons, Node.run_expression, eval_sequence, follow, bind_assoc, pure_bind]

theorem runAll_joinRuns : runAll I k (joinRuns ns) = runAll I k ns := by
  induction ns using joinRuns.induct with
  | case1 a span b _ ns ih =>
    rw [joinRuns, ih, runAll_sequence]
  | case2 n ns hne ih =>
    rw [joinRuns, runAll_cons, runAll_cons, ih]
    exact hne
  | case3 => rw [joinRuns]

theorem runAll_join : runAll I k (join ns) = runAll I k ns := by
  have hruns : runAll I k (joinRuns ns) = runAll I k ns := runAll_joinRuns
  unfold join
  split
  · rename_i a s kind value t heq
    rw [← hruns, heq]
    simp only [runAll_cons, Node.run_expression, Node.run_exit, eval_sequence, follow, bind_assoc,
      pure_bind]
  · exact hruns

/-- Tidying a statement list leaves its execution as it is. -/
theorem runAll_tidied : runAll I k (tidied o ns) = runAll I k ns := by
  have hpruned : runAll I k (if o.on .deadCode then pruned (flatten ns) else flatten ns) =
      runAll I k ns := by
    split
    · rw [runAll_pruned, runAll_flatten]
    · exact runAll_flatten
  unfold tidied
  dsimp only
  split
  · rw [runAll_join, hpruned]
  · exact hpruned

end Statements

namespace Rule

variable {c x : Node} {y? : Option Node}

omit [LawfulMonad m] in
theorem run_getD_empty : (y?.getD (.empty span)).run I k = orNothing (y?.map (Node.run I k)) := by
  cases y? with
  | none => exact Node.run_empty
  | some y => rfl

/-- A condition asks its expression for the truth alone. -/
theorem eval_test (x y : m Completion) : (c.eval I >>= fun v => if v.truthy then x else y) =
    Primitive.truthy <$> c.eval I >>= fun t => if t then x else y := by
  rw [bind_map_left]

theorem run_swapNegated {c' x' : Node} {y?' : Option Node} {s : Span}
    (h : swapNegated c x y? span = (c', x', y?')) :
    (⟨.branch c' x' y?', s⟩ : Node).run I k = (⟨.branch c x y?, s⟩ : Node).run I k := by
  unfold swapNegated at h
  split at h
  · rename_i operand s'
    obtain ⟨rfl, rfl, rfl⟩ : operand = c' ∧ y?.getD (.empty span) = x' ∧ some x = y?' := by
      simpa using h
    rw [Node.run_branch, Node.run_branch, eval_test, eval_test, truth_not, bind_map_left,
      bind_map_left]
    refine bind_congr fun v => ?_
    cases v.truthy with
    | true => exact run_getD_empty
    | false => rfl
  · obtain ⟨rfl, rfl, rfl⟩ : c = c' ∧ x = x' ∧ y? = y?' := by simpa using h
    rfl

theorem Merged.run (hc : c.BuiltOf (o.Sound I)) (h : Merged o false c x y? span n) :
    n.run I k = (⟨.branch c x y?, span⟩ : Node).run I k := by
  cases h with
  | both hx hy h =>
    subst hx hy
    rw [Node.run_expression, Node.run_branch, eval_chosen hc h, eval_conditional, bind_assoc]
    refine bind_congr fun v => ?_
    split <;> exact Node.run_expression.symm
  | whenTrue hx hy h =>
    subst hx
    have hnothing : orNothing (y?.map (Node.run I k)) = pure .normal := by
      obtain rfl | ⟨s, rfl⟩ := hy
      · rfl
      · exact Node.run_empty
    rw [Node.run_expression, Node.run_branch, eval_combined rfl h, eval_binary, Interpretation.binary, bind_assoc,
      hnothing]
    refine bind_congr fun v => ?_
    split
    · exact Node.run_expression.symm
    · rw [pure_bind]
  | whenFalse hx hy h =>
    subst hx hy
    rw [Node.run_expression, Node.run_branch, eval_combined rfl h, eval_binary, Interpretation.binary, bind_assoc]
    refine bind_congr fun v => ?_
    split
    · rw [pure_bind]
      exact Node.run_empty.symm
    · exact Node.run_expression.symm
  | exits hx hy h =>
    subst hx hy
    rw [Node.run_exit, Node.run_branch, eval_chosen hc h, eval_conditional, bind_assoc]
    refine bind_congr fun v => ?_
    split <;> exact Node.run_exit.symm
  | same => rfl

theorem Branched.run (hc : c.BuiltOf (o.Sound I)) (h : Branched o false c x y? span n) :
    n.run I k = (⟨.branch c x y?, span⟩ : Node).run I k := by
  cases h with
  | known _ hv =>
    rw [Node.run_branch, eval_of_value? hv, pure_bind]
    split
    · rfl
    · exact run_getD_empty
  | @merged c' _ _ _ _ _ hswap h =>
    have hc' : c'.BuiltOf (o.Sound I) := by
      unfold swapNegated at hswap
      split at hswap
      · obtain ⟨rfl, -⟩ := Prod.mk.inj hswap
        exact hc.child rfl (by simp [Form.children])
      · obtain ⟨rfl, -⟩ := Prod.mk.inj hswap
        exact hc
    rw [h.run hc', run_swapNegated hswap]
  | off => rfl

/-- A loop whose test always holds does not need the test before its first round. -/
theorem cycleAfter_true {x : m Completion} :
    cycleAfter (pure true) x k = cycle (pure true) x (pure ()) k := by
  cases k <;> simp [cycle, cycleAfter]

theorem cycle_false {x : m Completion} {s : m Unit} : cycle (pure false) x s k = pure .normal := by
  cases k <;> simp [cycle]

theorem Looped.run {kind : LoopKind} (h : Looped o kind c x span n) :
    n.run I k = (⟨.loop kind c x, span⟩ : Node).run I k := by
  have htest {v : Primitive} (hv : o.value? c = some v) :
      Primitive.truthy <$> c.eval I = (pure v.truthy : m Bool) := by
    rw [eval_of_value? hv, map_pure]
  cases h with
  | forever _ hv ht =>
    rw [Node.run_eq rfl, Node.run_eq rfl]
    cases kind with
    | whileDo =>
      change follow (pure .normal) (cycle (pure true) (x.run I k) (pure ()) k) =
        cycle (Primitive.truthy <$> c.eval I) (x.run I k) (pure ()) k
      rw [htest hv, ht, follow_pure_normal]
    | doWhile =>
      change follow (pure .normal) (cycle (pure true) (x.run I k) (pure ()) k) =
        cycleAfter (Primitive.truthy <$> c.eval I) (x.run I k) k
      rw [htest hv, ht, follow_pure_normal, cycleAfter_true]
  | never _ hv hf hk =>
    subst hk
    rw [Node.run_empty, Node.run_eq rfl]
    change _ = cycle (Primitive.truthy <$> c.eval I) (x.run I k) (pure ()) k
    rw [htest hv, hf, cycle_false]
  | same => rfl

omit [LawfulMonad m] in
/-- An empty statement at the start of a `for` does nothing. -/
theorem run_forLoop {init? c? step? : Option Node} :
    (⟨.forLoop (init?.filter (!·.isEmpty)) c? step? x, span⟩ : Node).run I k =
      (⟨.forLoop init? c? step? x, span⟩ : Node).run I k := by
  have hinit : orNothing (((init?.filter (!·.isEmpty)).map
        fun c => (⟨fun _ => c.eval I, c.run I k⟩ : Piece m)).map (·.effect)) =
      orNothing ((init?.map fun c => (⟨fun _ => c.eval I, c.run I k⟩ : Piece m)).map (·.effect)) := by
    cases init? with
    | none => rfl
    | some n =>
      obtain ⟨form, s⟩ := n
      cases form with
      | empty => exact Node.run_empty.symm
      | _ => rfl
  rw [Node.run_eq rfl, Node.run_eq rfl]
  exact congrArg (follow · _) hinit

/-- The rule for a statement leaves what the statement does. -/
theorem run_simplified {form : Form Node} (hs : form.isStructured = true)
    (hc : ∀ c, (.condition, c) ∈ form.parts → c.BuiltOf (o.Sound I))
    (h : Simplified o false span form n) : n.run I k = (⟨form, span⟩ : Node).run I k := by
  cases form with
  | block body =>
    obtain ⟨a, rfl, rfl⟩ | rfl := simplified_block h
    · rw [Node.run_block]
      exact follow_normal.symm
    · rfl
  | branch c x y? => exact Branched.run (hc c (by simp [Form.parts])) h
  | loop kind c x => exact Looped.run h
  | forLoop init? c? step? x =>
    obtain rfl := h
    exact run_forLoop
  | expression | empty | exit | jump | definitions =>
    obtain rfl := h
    rfl
  | _ => cases hs

end Rule

end ScriptMinifier
