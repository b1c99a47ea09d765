import Mathlib.Data.List.SplitBy
import ScriptMinifier.Proofs.NormalLists

namespace ScriptMinifier

/-- The operands of the commas at the top of an expression, left to right. -/
def Node.operands : Node → List Node
  | ⟨.sequence first second, _⟩ => operands first ++ operands second
  | n => [n]

namespace Statements

/-- What a statement list does, as far as commas tell. -/
inductive Step where
  | evaluate (value : Node)
  | leave (kind : ExitKind) (value : Node) (span : Span)
  | other (statement : Node)

/-- The steps of leaving with a value: its first operands are evaluated, it is left with the last. -/
def leaving (kind : ExitKind) (span : Span) : Node → List Step
  | ⟨.sequence first second, _⟩ => first.operands.map .evaluate ++ leaving kind span second
  | n => [.leave kind n span]

/-- The steps of one statement. -/
def stepsOf : Node → List Step
  | ⟨.expression e, _⟩ => e.operands.map .evaluate
  | ⟨.exit kind (some value), span⟩ => leaving kind span value
  | n => [.other n]

/-- The steps of a statement list, in order. -/
def steps (ns : List Node) : List Step := ns.flatMap stepsOf

/-- Two statements side by side belong to one run. -/
abbrev Adjoins (a b : Node) : Bool := a.isExpressionStatement && b.isExpressionStatement

/-- The longest runs of expression statements, and each other statement by itself. -/
def runs (ns : List Node) : List (List Node) := ns.splitBy Adjoins

/-- A statement by itself stays. Expression statements become one, which stands where the first of
them stood and takes the steps of all. -/
inductive Fuses : List Node → Node → Prop
  | alone (n : Node) : Fuses [n] n
  | run {n : Node} {ns : List Node} {e : Node} : ns ≠ [] →
    (∀ m ∈ n :: ns, m.isExpressionStatement = true) →
    stepsOf ⟨.expression e, n.span⟩ = steps (n :: ns) → Fuses (n :: ns) ⟨.expression e, n.span⟩

variable {ns rest : List Node} {n : Node}

theorem steps_cons (n : Node) (ns : List Node) : steps (n :: ns) = stepsOf n ++ steps ns :=
  List.flatMap_cons

/-- Two expression statements take the steps of the one that they are joined to. -/
theorem steps_sequence (a b : Node) (s t : Span) (ns : List Node) :
    steps (⟨.expression ⟨.sequence a b, s⟩, s⟩ :: ns) =
      steps (⟨.expression a, s⟩ :: ⟨.expression b, t⟩ :: ns) := by
  have hfirst : stepsOf ⟨.expression ⟨.sequence a b, s⟩, s⟩ =
      a.operands.map .evaluate ++ b.operands.map .evaluate :=
    List.map_append
  rw [steps_cons, steps_cons, steps_cons, hfirst, List.append_assoc]
  rfl

theorem steps_joinRuns (ns : List Node) : steps (joinRuns ns) = steps ns := by
  fun_induction joinRuns ns with
  | case1 a span b s ns ih => rw [ih, steps_sequence a b span s]
  | case2 n ns _ ih => rw [steps_cons, steps_cons, ih]
  | case3 => rfl

theorem steps_join (ns : List Node) : steps (join ns) = steps ns := by
  rw [← steps_joinRuns ns]
  unfold join
  split
  · rename_i heq
    rw [heq]
    exact List.append_assoc ..
  · rfl

theorem joinRuns_cons (h : ∀ x ∈ ns.head?, Adjoins n x = false) :
    joinRuns (n :: ns) = n :: joinRuns ns := by
  rw [joinRuns]
  rintro a s b t ms rfl rfl
  cases h _ rfl

/-- What the first two statements of a run are joined to goes on as the run does. -/
theorem Fuses.cons {a b : Node} {s t : Span}
    (h : Fuses (⟨.expression ⟨.sequence a b, s⟩, s⟩ :: ns) n) :
    Fuses (⟨.expression a, s⟩ :: ⟨.expression b, t⟩ :: ns) n := by
  have hsteps := steps_sequence a b s t ns
  cases h with
  | alone =>
    refine .run (n := ⟨.expression a, s⟩) (by simp) (fun m hm => ?_) ?_
    · obtain rfl | rfl : m = ⟨.expression a, s⟩ ∨ m = ⟨.expression b, t⟩ := by simpa using hm
      · rfl
      · rfl
    · rw [← hsteps]
      exact (List.append_nil _).symm
  | run _ hall h =>
    refine .run (n := ⟨.expression a, s⟩) (by simp) ?_ (h.trans hsteps)
    have hns := (List.forall_mem_cons.1 hall).2
    exact List.forall_mem_cons.2 ⟨rfl, List.forall_mem_cons.2 ⟨rfl, hns⟩⟩

/-- The statements of a run are joined before the rest of the list, in which the run does not go
on. -/
theorem exists_fused (hrun : (n :: ns).IsChain fun a b => Adjoins a b = true)
    (hend : ∀ l ∈ (n :: ns).getLast?, ∀ x ∈ rest.head?, Adjoins l x = false) :
    ∃ m, joinRuns (n :: ns ++ rest) = m :: joinRuns rest ∧ Fuses (n :: ns) m := by
  induction ns generalizing n with
  | nil => exact ⟨n, joinRuns_cons (hend n rfl), .alone n⟩
  | cons x ns ih =>
    obtain ⟨hnx, hchain⟩ := List.isChain_cons_cons.1 hrun
    obtain ⟨hn, hx⟩ := Bool.and_eq_true_iff.1 hnx
    obtain ⟨a, s, rfl⟩ := Node.exists_of_isExpressionStatement hn
    obtain ⟨b, t, rfl⟩ := Node.exists_of_isExpressionStatement hx
    have hlast : ∀ l ∈ (⟨.expression ⟨.sequence a b, s⟩, s⟩ :: ns : List Node).getLast?,
        ∀ x ∈ rest.head?, Adjoins l x = false := by
      cases ns with
      | nil =>
        intro l hl y hy
        obtain rfl : _ = l := Option.some.inj hl
        exact hend ⟨.expression b, t⟩ rfl y hy
      | cons y ns => simpa using hend
    have hfused : (⟨.expression ⟨.sequence a b, s⟩, s⟩ :: ns : List Node).IsChain
        fun a b => Adjoins a b = true :=
      List.isChain_cons.2 (List.isChain_cons.1 hchain)
    obtain ⟨m, hm, hfuses⟩ := ih hfused hlast
    refine ⟨m, ?_, hfuses.cons⟩
    rw [← hm]
    simp [joinRuns]

/-- Runs that do not adjoin are joined one by one. -/
theorem fuses_of_runs {runs : List (List Node)} (hne : [] ∉ runs)
    (hruns : ∀ run ∈ runs, run.IsChain fun a b => Adjoins a b = true)
    (hends : runs.IsChain fun a b => ∃ ha hb, Adjoins (a.getLast ha) (b.head hb) = false) :
    List.Forall₂ Fuses runs (joinRuns runs.flatten) := by
  induction runs with
  | nil => simp [joinRuns]
  | cons run runs ih =>
    obtain ⟨n, ns, rfl⟩ := List.exists_cons_of_ne_nil fun h => hne (h ▸ List.mem_cons_self)
    obtain ⟨hrun, hruns⟩ := List.forall_mem_cons.1 hruns
    obtain ⟨hnext, hends⟩ := List.isChain_cons.1 hends
    have hrest := ih (fun h => hne (List.mem_cons_of_mem _ h)) hruns hends
    have hend : ∀ l ∈ (n :: ns).getLast?, ∀ x ∈ runs.flatten.head?, Adjoins l x = false := by
      intro l hl x hx
      cases runs with
      | nil => cases hx
      | cons run' runs =>
        obtain ⟨ha, hb, hadjoins⟩ := hnext run' rfl
        obtain ⟨y, ys, rfl⟩ := List.exists_cons_of_ne_nil hb
        obtain rfl : y = x := Option.some.inj hx
        rw [List.getLast?_eq_some_getLast ha] at hl
        obtain rfl := Option.some.inj hl
        exact hadjoins
    obtain ⟨m, hm, hfuses⟩ := exists_fused hrun hend
    rw [List.flatten_cons, hm]
    exact .cons hfuses hrest

theorem fuses_joinRuns (ns : List Node) : List.Forall₂ Fuses (runs ns) (joinRuns ns) := by
  have h := fuses_of_runs (List.nil_notMem_splitBy _ ns)
    (fun _ h => List.isChain_of_mem_splitBy h) (List.isChain_getLast_head_splitBy Adjoins ns)
  rwa [List.flatten_splitBy] at h

theorem joinRuns_eq_self
    (h : ns.IsChain fun a b => ¬(a.isExpressionStatement = true ∧ b.isExpressionStatement = true)) :
    joinRuns ns = ns := by
  induction ns with
  | nil => simp [joinRuns]
  | cons n ns ih =>
    obtain ⟨hn, hns⟩ := List.isChain_cons.1 h
    rw [joinRuns_cons fun x hx => ?_, ih hns]
    exact eq_false_of_ne_true fun hadjoins => hn x hx (Bool.and_eq_true_iff.1 hadjoins)

theorem join_join (ns : List Node) : join (join ns) = join ns := by
  rcases join_cases ns with ⟨kind, v, s, h⟩ | ⟨h, hpair⟩
  · rw [h]
    simp [join, joinRuns]
  · rw [h, join, joinRuns_eq_self (joined_joinRuns ns)]
    split
    · rename_i heq
      cases hpair _ _ heq rfl
    · rfl

/-- A statement list does the same after joining, step by step. Each of its runs stands where it
began, and a run that ends the list with an exit is taken into the value of it. -/
theorem join_fuses (ns : List Node) :
    steps (join ns) = steps ns ∧ join (join ns) = join ns ∧
      (List.Forall₂ Fuses (runs ns) (join ns) ∨
        ∃ run a kind v s t, runs ns = [run, [⟨.exit kind (some v), s⟩]] ∧
          Fuses run ⟨.expression a, t⟩ ∧
          join ns = [⟨.exit kind (some ⟨.sequence a v, t⟩), s⟩]) := by
  refine ⟨steps_join ns, join_join ns, ?_⟩
  have hfuses := fuses_joinRuns ns
  unfold join
  split
  · rename_i heq
    rw [heq] at hfuses
    obtain ⟨run, runs, hrun, htail, hruns⟩ := List.forall₂_cons_right_iff.1 hfuses
    obtain ⟨last, runs, hlast, hnil, rfl⟩ := List.forall₂_cons_right_iff.1 htail
    obtain rfl := List.forall₂_nil_right_iff.1 hnil
    cases hlast with
    | alone => exact .inr ⟨run, _, _, _, _, _, hruns, hrun, rfl⟩
  · exact .inl hfuses

end Statements

end ScriptMinifier
