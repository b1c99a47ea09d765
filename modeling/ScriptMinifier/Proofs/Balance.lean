import ScriptMinifier.Proofs.Positions

namespace ScriptMinifier

open Context (Reroled)
open Pass (Leaves)

namespace Pass

variable {α : Type} {P : Position → Prop} {p : Pass α} {Q : α → Prop}

/-- From any state and to any end, the context stays as it was. -/
def Balanced (p : Pass α) : Prop := ∀ s, (p.run s).2.context = s.context

/-- As `Balanced`, but the innermost enclosure may have another role. -/
def Reroles (p : Pass α) : Prop := ∀ s, Reroled s.context (p.run s).2.context

/-- Of what a step leaves behind, the context alone. -/
theorem Leaves.context_only {D : Context → Prop} (h : Leaves D P p Q) :
    Leaves D (fun _ => True) p fun _ => True := by
  intro s hs
  obtain ⟨raised, hend, hcontext, hwarnings, -⟩ := h s hs
  exact ⟨raised, hend.mono (fun _ _ => trivial) fun _ _ => trivial, hcontext, hwarnings,
    fun _ _ => trivial⟩

theorem Leaves.balanced {Q : Context → α → Prop}
    (h : ∀ c, Leaves (· = c) (fun _ => True) p (Q c)) : p.Balanced := by
  intro s
  obtain ⟨_, -, hcontext, -⟩ := h s.context s rfl
  exact hcontext

theorem Leaves.reroles {Q : Context → α → Prop}
    (h : ∀ c, Leaves (Reroled c) (fun _ => True) p (Q c)) : p.Reroles := by
  intro s
  obtain ⟨_, -, hcontext, -⟩ := h s.context s (.refl _)
  exact hcontext

end Pass

/-- What the operations of the pass make of the context, whichever it is. -/
structure StackDiscipline (o : Options) : Prop where
  reduce (n : Node) : (n.reduce o).Balanced
  /-- A whole run starts from no enclosure and ends with none. -/
  minify (n : Node) :
    (n.reduce o).run .initial = ((minify o n).result, ⟨[], (minify o n).warnings⟩)
  /-- A child leaves the role that it was given. -/
  child (role : Role) (n : Node) (s : Session) :
    ((Pass.inRole role (n.reduce o)).run s).2.context = s.context.setRole role
  list (ns : List Node) : (ns.mapM fun n => Pass.inRole .other (n.reduce o)).Reroles
  tidy (ns : List Node) : (Statements.tidy o (Node.reduce o) ns).Reroles
  visit (form : Form Node) : (form.traverse (fun role c => Pass.inRole role (c.reduce o))
    (Statements.tidy o (Node.reduce o))).Reroles
  assign (bs : List (Binding Node)) :
    ((assignments? bs).mapM fun a => Pass.inRole .other (a.reduce o)).Reroles
  prune (ns : List Node) : (Statements.prune o ns).Balanced
  simplify (form : Form Node) (span : Span) : (Rule.simplify o form span).Balanced
  branches (c body : Node) (alternative : Option Node) (span : Span) :
    (Rule.branches o c body alternative span).Balanced
  truthShortcut (op : BinaryOperator) (l r : Node) (span : Span) :
    (Rule.truthShortcut o op l r span).Balanced

section Operations

variable (o : Options)

theorem leaves_reduce_context (n : Node) (c : Context) :
    Leaves (· = c) (fun _ => True) (n.reduce o) fun _ => True :=
  (leaves_reduce (S := fun _ => True) (fun _ _ => trivial) c).context_only

theorem leaves_child_context (role : Role) (n : Node) (c : Context) :
    Leaves (Reroled c) (fun _ => True) (Pass.inRole role (n.reduce o)) fun _ => True :=
  .inRole (leaves_reduce_context o n _)

theorem leaves_tidy_context (ns : List Node) (c : Context) :
    Leaves (Reroled c) (fun _ => True) (Statements.tidy o (Node.reduce o) ns)
      (Statements.Tidied o (fun _ _ => True) ns) := by
  apply Statements.judge_tidy Leaves.compositional
  · intro n _
    exact leaves_child_context o .other n c
  · intro _ _ _ _ _ _
    exact .warn trivial

/-- The rules ask a context that they leave alone. -/
theorem grounded_context (c : Context) : Pass.Grounded c.onlyTruthMatters (fun _ => True)
    (fun _ => True) fun _ p Q => Leaves (· = c) (fun _ => True) p Q :=
  Leaves.grounded (P := fun _ => True) fun _ h => congrArg Context.onlyTruthMatters h

/-- Whatever the context, each operation of the pass leaves it in order. -/
theorem stackDiscipline : StackDiscipline o := by
  constructor
  case reduce =>
    intro n
    exact Leaves.balanced (leaves_reduce_context o n)
  case minify =>
    intro n
    have hcontext := Leaves.balanced (leaves_reduce_context o n) .initial
    exact Prod.ext rfl (congrArg (Session.mk · _) hcontext)
  case child =>
    intro role n s
    exact Leaves.balanced (leaves_reduce_context o n) _
  case list =>
    intro ns
    apply Leaves.reroles
    intro c
    exact Leaves.compositional.mapM_list fun n _ => leaves_child_context o .other n c
  case tidy =>
    intro ns
    exact Leaves.reroles (leaves_tidy_context o ns)
  case visit =>
    intro form
    apply Leaves.reroles
    intro c
    exact Leaves.compositional.traverse (fun k n _ => leaves_child_context o k.role n c)
      fun body _ => leaves_tidy_context o body c
  case assign =>
    intro bs
    apply Leaves.reroles
    intro c
    exact Leaves.compositional.mapM_option fun n _ => leaves_child_context o .other n c
  case prune =>
    intro ns
    apply Leaves.balanced
    intro c
    exact Statements.judge_prune Leaves.compositional fun _ _ _ _ => .warn trivial
  case simplify =>
    intro form span
    apply Leaves.balanced
    intro c
    exact Rule.judge_simplify (grounded_context c) trivial (fun _ _ => trivial)
      (Rule.tests_any form)
  case branches =>
    intro condition body alternative span
    apply Leaves.balanced
    intro c
    exact Rule.judge_branches (grounded_context c) trivial (Rule.evaluable_any condition)
      (fun x _ _ => Rule.evaluable_any x) fun x _ _ => Rule.evaluable_any x
  case truthShortcut =>
    intro op l r span
    apply Leaves.balanced
    intro c
    exact Rule.judge_truthShortcut (grounded_context c) trivial (Rule.evaluable_any l)
      (Rule.evaluable_any r)

end Operations

end ScriptMinifier
