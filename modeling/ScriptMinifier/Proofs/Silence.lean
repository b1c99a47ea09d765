import Mathlib
import ScriptMinifier.Proofs.Reduce
import ScriptMinifier.Proofs.TwoRuns
import ScriptMinifier.Tree.Build

namespace ScriptMinifier

namespace Options

/-- The warnings that are let through. -/
def heard (o : Options) (ws : List Warning) : List Warning := if o.on .warnings then ws else []

theorem heard_nil (o : Options) : o.heard [] = [] := ite_self []

theorem heard_append (o : Options) (ws ws' : List Warning) :
    o.heard (ws ++ ws') = o.heard ws ++ o.heard ws' := by
  unfold heard
  split <;> rfl

theorem heard_on {o : Options} (h : o.on .warnings = true) (ws : List Warning) :
    o.heard ws = ws := if_pos h

theorem heard_off {o : Options} (h : o.on .warnings = false) (ws : List Warning) :
    o.heard ws = [] := if_neg (by simp [h])

/-- Two sets of options that differ at most in warnings and in what is allowed to unusual
programs. -/
def SameRules (o o' : Options) : Prop := ∀ f, f ≠ .warnings ∧ f ≠ .risky → o.on f = o'.on f

namespace SameRules

variable {o o' : Options} (h : o.SameRules o')

include h

theorem hoist_eq : o.hoist = o'.hoist := by
  rw [hoist, hoist, h .hoistFunctions (by decide), h .hoistVariables (by decide)]

theorem foldConstant_eq (n : Node) : o.foldConstant n = o'.foldConstant n := by
  rw [foldConstant, foldConstant, h .constants (by decide)]

end SameRules

end Options

namespace Pass

variable {α β : Type} {o o' : Options}

/-- A step of one run and a step of another do the same, but for the warnings they keep. -/
def Alike (o o' : Options) (p p' : Pass α) : Prop :=
  ∀ c, ∃ r c' raised, (∀ ws, p.run ⟨c, ws⟩ = (r, ⟨c', ws ++ o.heard raised⟩)) ∧
    ∀ ws, p'.run ⟨c, ws⟩ = (r, ⟨c', ws ++ o'.heard raised⟩)

namespace Alike

theorem silent {p : Pass α} (h : ∀ c, ∃ r c', ∀ ws, p.run ⟨c, ws⟩ = (r, ⟨c', ws⟩)) :
    Alike o o' p p := by
  intro c
  obtain ⟨r, c', hrun⟩ := h c
  refine ⟨r, c', [], fun ws => ?_, fun ws => ?_⟩
  · rw [Options.heard_nil, List.append_nil, hrun]
  · rw [Options.heard_nil, List.append_nil, hrun]

protected theorem pure (a : α) : Alike o o' (pure a) (pure a) :=
  silent fun c => ⟨.ok a, c, fun _ => rfl⟩

theorem attempt (r : Except Fault α) : Alike o o' (attempt r) (attempt r) :=
  silent fun c => ⟨r, c, fun _ => rfl⟩

theorem context : Alike o o' context context :=
  silent fun c => ⟨.ok c, c, fun _ => rfl⟩

theorem report (w : Warning) : Alike o o' (report o w) (report o' w) := by
  have hrun (o : Options) (c : Context) (ws : List Warning) :
      (Pass.report o w).run ⟨c, ws⟩ = (.ok (), ⟨c, ws ++ o.heard [w]⟩) := by
    cases hw : o.on .warnings with
    | true =>
      rw [Pass.report, if_pos hw, Options.heard_on hw]
      rfl
    | false =>
      rw [Pass.report, if_neg (by simp [hw]), Options.heard_off hw, List.append_nil]
      rfl
  exact fun c => ⟨.ok (), c, [w], hrun o c, hrun o' c⟩

theorem warn (finding : Finding) (p : Position) :
    Alike o o' (warn o finding p) (warn o' finding p) := report _

protected theorem bind {p p' : Pass α} {f f' : α → Pass β} (h : Alike o o' p p')
    (hf : ∀ a, Alike o o' (f a) (f' a)) : Alike o o' (p >>= f) (p' >>= f') := by
  intro c
  obtain ⟨r, c₁, raised₁, h₁, h₁'⟩ := h c
  cases r with
  | error fault =>
    refine ⟨.error fault, c₁, raised₁, fun ws => ?_, fun ws => ?_⟩
    · rw [run_bind, h₁]
      rfl
    · rw [run_bind, h₁']
      rfl
  | ok a =>
    obtain ⟨r, c₂, raised₂, h₂, h₂'⟩ := hf a c₁
    refine ⟨r, c₂, raised₁ ++ raised₂, fun ws => ?_, fun ws => ?_⟩
    · rw [run_bind, h₁, Options.heard_append, ← List.append_assoc]
      exact h₂ _
    · rw [run_bind, h₁', Options.heard_append, ← List.append_assoc]
      exact h₂' _

theorem within {e : Enclosure} {p p' : Pass α} (h : Alike o o' p p') :
    Alike o o' (within e p) (within e p') := by
  intro c
  obtain ⟨r, c', raised, hp, hp'⟩ := h (e :: c)
  refine ⟨r, c'.tail, raised, fun ws => ?_, fun ws => ?_⟩
  · rw [run_within, hp]
  · rw [run_within, hp']

theorem inRole {role : Role} {p p' : Pass α} (h : Alike o o' p p') :
    Alike o o' (inRole role p) (inRole role p') := fun c => h (c.setRole role)

theorem relational : Relational fun _ p p' => Alike o o' p p' := ⟨.pure, .bind⟩

end Alike

end Pass

open Pass (Alike)

section Rules

variable {o o' : Options} (h : o.SameRules o')

include h

namespace Rule

theorem shortenBoolean_eq (n : Node) : shortenBoolean o n = shortenBoolean o' n := by
  unfold shortenBoolean
  rw [h .booleans (by decide)]

theorem alike_fold (n : Node) : Alike o o' (fold o n) (fold o' n) := by
  unfold fold
  rw [h.foldConstant_eq]
  refine (Alike.attempt _).bind fun _ => ?_
  rw [shortenBoolean_eq h]
  exact .pure _

theorem alike_value? (n : Node) : Alike o o' (value? o n) (value? o' n) := by
  unfold value?
  rw [h.foldConstant_eq]
  exact (Alike.attempt _).bind fun _ => .pure _

omit h in
theorem alike_warnConstant (truth : Bool) (p : Position) :
    Alike o o' (warnConstant o truth p) (warnConstant o' truth p) := .warn _ p

theorem alike_conditional (c a b : Node) (span : Span) :
    Alike o o' (conditional o c a b span) (conditional o' c a b span) := by
  unfold conditional
  rw [h .conditionals (by decide), h .comparisons (by decide), h.foldConstant_eq]
  split
  · refine (Alike.attempt _).bind fun (c, v?) => ?_
    cases v? with
    | some v => exact (alike_warnConstant _ _).bind fun _ => .pure _
    | none => exact (Alike.attempt _).bind fun _ => .pure _
  · exact .pure _

theorem truthLiteral_eq (b : Bool) (span : Span) :
    truthLiteral o b span = truthLiteral o' b span := shortenBoolean_eq h _

theorem alike_truthShortcut (op : BinaryOperator) (l r : Node) (span : Span) :
    Alike o o' (truthShortcut o op l r span) (truthShortcut o' op l r span) := by
  have hdecided (finding : Finding) (b : Bool) :
      Alike o o' (do Pass.warn o finding span.start; return some (truthLiteral o b span))
        (do Pass.warn o' finding span.start; return some (truthLiteral o' b span)) := by
    rw [truthLiteral_eq h]
    exact (Alike.warn _ _).bind fun _ => .pure _
  unfold truthShortcut
  split
  · exact .pure _
  · refine (alike_value? h l).bind fun v? => (alike_value? h r).bind fun w? => ?_
    dsimp only
    split
    · split
      · exact hdecided _ _
      · exact .pure _
    · split
      · exact hdecided _ _
      · exact .pure _
    · split
      · exact hdecided _ _
      · exact .pure _

theorem loosen_eq (op : BinaryOperator) (l r : Node) : loosen o op l r = loosen o' op l r := by
  unfold loosen
  rw [h .comparisons (by decide)]

theorem alike_binary (op : BinaryOperator) (l r : Node) (span : Span) :
    Alike o o' (binary o op l r span) (binary o' op l r span) := by
  unfold binary
  rw [h .booleans (by decide)]
  refine Alike.context.bind fun c => ?_
  dsimp only
  have hfold := alike_fold h ⟨.binary (loosen o op l r) l r, span⟩
  rw [loosen_eq h] at hfold ⊢
  split
  · refine (alike_truthShortcut h op l r span).bind fun shortcut? => ?_
    cases shortcut? with
    | some n =>
      dsimp only
      rw [shortenBoolean_eq h]
      exact .pure _
    | none => exact hfold
  · exact hfold

theorem alike_unary (op : UnaryOperator) (x : Node) (span : Span) :
    Alike o o' (unary o op x span) (unary o' op x span) := by
  unfold unary
  rw [h .booleans (by decide)]
  refine Alike.context.bind fun c => ?_
  split
  · split
    · exact .pure _
    · rw [truthLiteral_eq h]
      exact (Alike.warn _ _).bind fun _ => .pure _
    · exact alike_fold h _
  · exact alike_fold h _

theorem alike_loop (kind : LoopKind) (c body : Node) (span : Span) :
    Alike o o' (loop o kind c body span) (loop o' kind c body span) := by
  unfold loop
  rw [h .loops (by decide)]
  split
  · refine (alike_value? h c).bind fun v? => ?_
    dsimp only
    split
    · split
      · exact .pure _
      · split
        · exact (Alike.warn _ _).bind fun _ => .pure _
        · exact .pure _
    · exact .pure _
  · exact .pure _

theorem alike_branches (c body : Node) (alternative : Option Node) (span : Span) :
    Alike o o' (branches o c body alternative span) (branches o' c body alternative span) := by
  unfold branches
  split
  · exact (alike_conditional h _ _ _ _).bind fun _ => .pure _
  · exact (alike_binary h _ _ _ _).bind fun _ => .pure _
  · exact (alike_binary h _ _ _ _).bind fun _ => .pure _
  · exact (alike_binary h _ _ _ _).bind fun _ => .pure _
  · split
    · exact (alike_conditional h _ _ _ _).bind fun _ => .pure _
    · exact .pure _
  · exact .pure _

theorem alike_branch (c body : Node) (alternative : Option Node) (span : Span) :
    Alike o o' (branch o c body alternative span) (branch o' c body alternative span) := by
  unfold branch
  rw [h .conditionals (by decide), h.foldConstant_eq]
  split
  · refine (Alike.attempt _).bind fun (c, v?) => ?_
    cases v? with
    | some v => exact (alike_warnConstant _ _).bind fun _ => .pure _
    | none => exact alike_branches h _ _ _ _
  · exact .pure _

theorem index_eq (subject property : Node) (span : Span) :
    index o subject property span = index o' subject property span := by
  unfold index
  rw [h .properties (by decide)]

theorem alike_simplify (form : Form Node) (span : Span) :
    Alike o o' (simplify o form span) (simplify o' form span) := by
  unfold simplify
  rw [h .dropDebugger (by decide)]
  split
  · exact .pure _
  · exact .pure _
  · exact .pure _
  · exact alike_branch h _ _ _ _
  · exact alike_loop h _ _ _ _
  · exact .pure _
  · rw [truthLiteral_eq h]
    exact .pure _
  · exact alike_unary h _ _ _
  · exact alike_binary h _ _ _ _
  · exact alike_conditional h _ _ _ _
  · rw [index_eq h]
    exact .pure _
  · exact .pure _

end Rule

namespace Statements

omit h in
theorem alike_pruneStatement (n : Node) :
    Alike o o' (pruneStatement o n) (pruneStatement o' n) := by
  unfold pruneStatement
  split
  · exact .pure _
  · exact (Alike.relational.forM_list fun _ _ => .warn _ _).bind fun _ => .pure _

omit h in
theorem alike_prune (ns : List Node) : Alike o o' (prune o ns) (prune o' ns) := by
  induction ns with
  | nil => exact .pure []
  | cons n ns ih =>
    unfold prune
    split
    · exact (Alike.relational.mapM_list fun n _ => alike_pruneStatement n).bind fun _ => .pure _
    · exact ih.bind fun _ => .pure _

theorem alike_tidy {α : Type} {step step' : α → Pass Node} {ns : List α}
    (hs : ∀ a ∈ ns, Alike o o' (step a) (step' a)) :
    Alike o o' (tidy o step ns) (tidy o' step' ns) := by
  unfold tidy
  rw [h .deadCode (by decide), h .sequences (by decide)]
  refine (Alike.relational.mapM_list fun a ha => (hs a ha).inRole).bind fun ms => ?_
  dsimp only
  split
  · exact (alike_prune _).bind fun _ => .pure _
  · exact .pure _

end Statements

/-- The pass does the same under options that have the same rules. -/
theorem alike_reduce (n : Node) : Alike o o' (n.reduce o) (n.reduce o') := by
  induction n using Node.reduceInduct o with
  | unmarked form span hm ihParts =>
    rw [Node.reduce_unmarked hm, Node.reduce_unmarked hm, ← h.hoist_eq]
    refine .within (.bind ?_ fun form' => Rule.alike_simplify h form' span)
    exact Alike.relational.traverse (fun k a ha => (ihParts k a ha).inRole) fun body hb =>
      Statements.alike_tidy h fun a ha => ihParts .statement a (Form.mem_parts_of_body? hb ha)
  | declaration l span hl =>
    rw [Node.reduce_declaration hl, Node.reduce_declaration hl]
    exact .within (.pure _)
  | definitions kind bs span ihAssignments =>
    rw [Node.reduce_definitions, Node.reduce_definitions]
    refine .within (Alike.context.bind fun c => .bind ?_ fun _ => .pure _)
    exact Alike.relational.mapM_option fun a ha => (ihAssignments a ha).inRole

end Rules

/-- Reporting never changes what a node becomes, nor the fault that a run ends in. With warnings off
nothing is reported; with warnings on in both runs both report the same in the same order. -/
theorem reduce_whatever_is_reported {o o' : Options} (h : o.SameRules o') (n : Node) (c : Context)
    (ws ws' : List Warning) :
    ((n.reduce o).run ⟨c, ws⟩).1 = ((n.reduce o').run ⟨c, ws'⟩).1 ∧
    (o.on .warnings = false → ((n.reduce o).run ⟨c, ws⟩).2.warnings = ws) ∧
    (o'.on .warnings = false → ((n.reduce o').run ⟨c, ws'⟩).2.warnings = ws') ∧
    (o.on .warnings = true → o'.on .warnings = true → ∃ raised,
      ((n.reduce o).run ⟨c, ws⟩).2.warnings = ws ++ raised ∧
      ((n.reduce o').run ⟨c, ws'⟩).2.warnings = ws' ++ raised) := by
  obtain ⟨r, c', raised, hrun, hrun'⟩ := alike_reduce h n c
  rw [hrun, hrun']
  refine ⟨rfl, fun hoff => ?_, fun hoff => ?_, fun hon hon' => ⟨raised, ?_, ?_⟩⟩
  · rw [Options.heard_off hoff, List.append_nil]
  · rw [Options.heard_off hoff, List.append_nil]
  · rw [Options.heard_on hon]
  · rw [Options.heard_on hon']

/-- `if(null)f();` becomes nothing, with or without the warning that its condition is false. -/
theorem reduce_silent_branch :
    let n := Build.branch Build.null (Build.callStatement "f" []) none
    let silent := Options.full.set .warnings false
    Options.full.SameRules silent ∧
    (n.reduce .full).run .initial =
      (.ok Build.empty, ⟨[], [⟨Finding.conditionAlwaysFalse.template, default⟩]⟩) ∧
    ((n.reduce silent).run .initial).1 = .ok Build.empty ∧
    ((n.reduce silent).run .initial).2.warnings = [] := by
  intro n silent
  have hrules : Options.full.SameRules silent := fun f hf =>
    ((Options.on_set ..).trans (if_neg hf.1)).symm
  have hrun : (n.reduce .full).run .initial =
      (.ok Build.empty, ⟨[], [⟨Finding.conditionAlwaysFalse.template, default⟩]⟩) := by cbv
  obtain ⟨hsame, -, hnothing, -⟩ := reduce_whatever_is_reported hrules n [] [] []
  exact ⟨hrules, hrun, hsame.symm.trans (congrArg Prod.fst hrun), hnothing rfl⟩

end ScriptMinifier
