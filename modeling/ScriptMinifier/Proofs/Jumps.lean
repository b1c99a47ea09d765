import ScriptMinifier.Proofs.WellFormed

namespace ScriptMinifier

open Pass (Gives)

/-- What jumps can go to from a place. -/
structure Targets where
  labels : List String
  loop : Bool
  switch : Bool
deriving DecidableEq, Repr

namespace Targets

/-- At the top of a function there is nowhere to go. -/
def nowhere : Targets := ⟨[], false, false⟩

def Reach (t : Targets) : JumpKind → Option String → Prop
  | _, some name => name ∈ t.labels
  | .leave, none => t.loop = true ∨ t.switch = true
  | .next, none => t.loop = true

end Targets

namespace Form

variable {α β : Type}

/-- What jumps in the parts of the form can go to. A label that no jump refers to does not count. -/
def targets (t : Targets) : Form α → Targets
  | labeled l _ => if l.references = 0 then t else { t with labels := l.name :: t.labels }
  | loop .. | forLoop .. | forIn .. => { t with loop := true }
  | switch .. => { t with switch := true }
  | declaration _ | function _ => .nowhere
  | _ => t

/-- A form that is a jump finds what it goes to. -/
def Lands (t : Targets) : Form α → Prop
  | jump kind label => t.Reach kind label
  | _ => True

/-- Forms that are no jump, and around which jumps go to the same as inside. -/
def isNeutral : Form α → Bool
  | jump .. | labeled .. | loop .. | forLoop .. | forIn .. | switch .. | declaration _
  | function _ => false
  | _ => true

variable {t : Targets}

theorem targets_of_isNeutral {form : Form α} (h : form.isNeutral = true) : form.targets t = t := by
  cases form <;> first | rfl | cases h

theorem lands_of_isNeutral {form : Form α} (h : form.isNeutral = true) : form.Lands t := by
  cases form <;> trivial

@[simp] theorem targets_map (f : α → β) (form : Form α) :
    (form.map f).targets t = form.targets t := by
  cases form <;> rfl

@[simp] theorem lands_map (f : α → β) (form : Form α) : (form.map f).Lands t ↔ form.Lands t := by
  cases form <;> rfl

@[simp] theorem targets_withHoisted (b : Bool) (form : Form α) :
    (form.withHoisted b).targets t = form.targets t := by
  cases form <;> rfl

@[simp] theorem lands_withHoisted (b : Bool) (form : Form α) :
    (form.withHoisted b).Lands t ↔ form.Lands t := by
  cases form <;> rfl

theorem Lift.targets {R : Category → α → β → Prop} {L : List α → List β → Prop} {form : Form α}
    {form' : Form β} (h : form.Lift R L form') : form'.targets t = form.targets t := by
  cases h <;> rfl

theorem Lift.lands {R : Category → α → β → Prop} {L : List α → List β → Prop} {form : Form α}
    {form' : Form β} (h : form.Lift R L form') : form'.Lands t ↔ form.Lands t := by
  cases h <;> rfl

end Form

namespace Node

/-- Every jump of the tree finds what it goes to, in the tree or else in `t`. -/
inductive JumpsWithin : Targets → Node → Prop
  | mk {t : Targets} {form : Form Node} {span : Span} : form.Lands t →
    (∀ c ∈ form.children, JumpsWithin (form.targets t) c) → JumpsWithin t ⟨form, span⟩

/-- Every jump of the tree finds what it goes to in the tree. -/
def JumpClosed (n : Node) : Prop := n.JumpsWithin .nowhere

end Node

variable {o : Options} {truth : Bool} {span : Span} {t : Targets} {form : Form Node} {n m : Node}

namespace Node

theorem jumpsWithin_iff : (⟨form, span⟩ : Node).JumpsWithin t ↔
    form.Lands t ∧ ∀ c ∈ form.children, c.JumpsWithin (form.targets t) :=
  ⟨fun h => by cases h with | mk h hc => exact ⟨h, hc⟩, fun h => .mk h.1 h.2⟩

theorem jumpsWithin_iff_children (h : form.isNeutral = true) :
    (⟨form, span⟩ : Node).JumpsWithin t ↔ ∀ c ∈ form.children, c.JumpsWithin t := by
  rw [jumpsWithin_iff, Form.targets_of_isNeutral h]
  exact and_iff_right (Form.lands_of_isNeutral h)

theorem jumpsWithin_leaf (h : form.isNeutral = true) (hc : form.children = []) :
    (⟨form, span⟩ : Node).JumpsWithin t := by
  rw [jumpsWithin_iff_children h, hc]
  exact fun _ hn => absurd hn List.not_mem_nil

theorem jumpsWithin_empty : (Node.empty span).JumpsWithin t := jumpsWithin_leaf rfl rfl

theorem jumpsWithin_expression {x : Node} :
    (⟨.expression x, span⟩ : Node).JumpsWithin t ↔ x.JumpsWithin t :=
  (jumpsWithin_iff_children rfl).trans List.forall_mem_singleton

theorem jumpsWithin_exit {kind : ExitKind} {x : Node} :
    (⟨.exit kind (some x), span⟩ : Node).JumpsWithin t ↔ x.JumpsWithin t :=
  (jumpsWithin_iff_children rfl).trans (by simp [Form.children])

theorem jumpsWithin_sequence {a b : Node} :
    (⟨.sequence a b, span⟩ : Node).JumpsWithin t ↔ a.JumpsWithin t ∧ b.JumpsWithin t :=
  (jumpsWithin_iff_children rfl).trans (by simp [Form.children])

theorem jumpsWithin_binary {op : BinaryOperator} {l r : Node} :
    (⟨.binary op l r, span⟩ : Node).JumpsWithin t ↔ l.JumpsWithin t ∧ r.JumpsWithin t :=
  (jumpsWithin_iff_children rfl).trans (by simp [Form.children])

/-- A declaration of variables without initializers holds no jump. -/
theorem jumpsWithin_bare {kind : DeclarationKind} {bs : List (Binding Node)} {hoisted : Bool} :
    (⟨.definitions kind (bs.map Binding.bare) hoisted, span⟩ : Node).JumpsWithin t := by
  apply jumpsWithin_leaf rfl
  simp [Form.children, List.filterMap_map, Function.comp_def]

namespace JumpsWithin

/-- Jumps in a function stay in it, wherever the function is. -/
theorem declaration {l : Lambda Node} {t' : Targets}
    (h : (⟨.declaration l, span⟩ : Node).JumpsWithin t') :
    (⟨.declaration l, span⟩ : Node).JumpsWithin t :=
  .mk trivial (jumpsWithin_iff.1 h).2

theorem of_mem_visited {descend : Node → Bool} (h : n.JumpsWithin t)
    (hm : m ∈ n.visited descend) : ∃ t', m.JumpsWithin t' := by
  induction n using Node.induct generalizing t with
  | h n ih =>
    rw [visited_eq] at hm
    rcases List.mem_cons.1 hm with rfl | hm
    · exact ⟨t, h⟩
    · split at hm
      · obtain ⟨c, hc, hmc⟩ := List.mem_flatMap.1 hm
        obtain ⟨form, s⟩ := n
        exact ih c hc ((jumpsWithin_iff.1 h).2 c hc) hmc
      · cases hm

end JumpsWithin

end Node

open Node (jumpsWithin_iff jumpsWithin_iff_children)

namespace Rule

theorem closed_jumpsWithin (t : Targets) : Closed (Node.JumpsWithin t) where
  literal v _ := by cases v <;> exact Node.jumpsWithin_leaf rfl rfl
  not := (jumpsWithin_iff_children rfl).trans List.forall_mem_singleton
  sequence := Node.jumpsWithin_sequence
  conditional := (jumpsWithin_iff_children rfl).trans (by simp [Form.children])
  operands := Node.jumpsWithin_binary.1
  logical _ hl hr := Node.jumpsWithin_binary.2 ⟨hl, hr⟩
  replace _ _ hl hr := Node.jumpsWithin_binary.2 ⟨hl, hr⟩

theorem carries_jumpsWithin (o : Options) (t : Targets) :
    Carries o (Node.JumpsWithin t) (Node.JumpsWithin t) where
  toKeeps := (closed_jumpsWithin t).keeps o
  logical := (closed_jumpsWithin t).logical
  expression := Node.jumpsWithin_expression
  exit hx hy hz :=
    Node.jumpsWithin_exit.2 (hz (Node.jumpsWithin_exit.1 hx) (Node.jumpsWithin_exit.1 hy))
  empty := Node.jumpsWithin_empty
  branch _ hc hb ha := by
    apply (jumpsWithin_iff_children rfl).2
    simpa [Form.children] using ⟨hc, hb, ha⟩

/-- A loop that never stops by its condition is a loop still. -/
theorem Looped.jumpsWithin {kind : LoopKind} {c body : Node} (h : Looped o kind c body span m)
    (hn : (⟨.loop kind c body, span⟩ : Node).JumpsWithin t) : m.JumpsWithin t := by
  cases h with
  | forever =>
    obtain ⟨-, hparts⟩ := jumpsWithin_iff.1 hn
    have hbody : body.JumpsWithin { t with loop := true } :=
      hparts body (by cases kind <;> simp [Form.children])
    exact .mk trivial (by simpa [Form.children, Form.targets] using hbody)
  | never => exact Node.jumpsWithin_empty
  | same => exact hn

/-- What a form becomes asks no more of its surroundings than the form did. -/
theorem jumpsWithin_simplified (h : Simplified o truth span form m)
    (hn : (⟨form, span⟩ : Node).JumpsWithin t) : m.JumpsWithin t := by
  obtain ⟨-, hparts⟩ := jumpsWithin_iff.1 hn
  cases form with
  | debugger =>
    subst h
    split
    · exact Node.jumpsWithin_empty
    · exact hn
  | labeled label body =>
    subst h
    split
    · rename_i hunused
      have hbody := hparts body (List.mem_singleton_self body)
      rwa [Form.targets, if_pos hunused] at hbody
    · exact hn
  | block body =>
    obtain ⟨a, rfl, rfl⟩ | rfl := simplified_block h
    · exact hparts m (List.mem_singleton_self m)
    · exact hn
  | branch c body alternative =>
    refine (carries_jumpsWithin o t).branched h (hparts c (by simp [Form.children]))
      (hparts body (by simp [Form.children])) fun a ha => hparts a ?_
    simp_all [Form.children]
  | loop kind c body => exact Looped.jumpsWithin h hn
  | forLoop init c step body =>
    subst h
    refine .mk trivial fun a ha => hparts a ?_
    simp only [Form.children, List.mem_append, Option.mem_toList, Option.filter_eq_some_iff,
      List.mem_singleton] at ha ⊢
    tauto
  | boolean b =>
    subst h
    exact (closed_jumpsWithin t).truthLiteral b
  | unary op x => exact (closed_jumpsWithin t).prefixed h hn
  | binary op l r => exact (closed_jumpsWithin t).combined h hn
  | conditional c a b => exact (closed_jumpsWithin t).chosen h hn
  | index subject property =>
    subst h
    have hsubject : subject.JumpsWithin t := hparts subject (by simp [Form.children])
    unfold index
    split
    · split
      · exact (jumpsWithin_iff_children rfl).2 (by simpa [Form.children] using hsubject)
      · exact hn
    · exact hn
  | _ =>
    subst h
    exact hn

theorem jumpsWithin_placeAssignments {parent? : Option Enclosure} {bs : List (Binding Node)}
    {a? : Option Node} (ha : ∀ a ∈ a?, a.JumpsWithin t) :
    (placeAssignments parent? bs a? span).JumpsWithin t := by
  unfold placeAssignments
  split
  · exact ha _ rfl
  · split
    · exact Node.jumpsWithin_empty
    · exact Node.jumpsWithin_leaf rfl rfl
  · exact ha _ rfl
  · exact Node.jumpsWithin_expression.2 (ha _ rfl)
  · exact Node.jumpsWithin_empty

end Rule

/-- The assignments of a `var` hold the jumps of its initializers. -/
theorem Node.JumpsWithin.assignments {kind : DeclarationKind} {bs : List (Binding Node)}
    {hoisted : Bool} {a : Node}
    (hn : (⟨.definitions kind bs hoisted, span⟩ : Node).JumpsWithin t)
    (ha : a ∈ assignments? bs) : a.JumpsWithin t := by
  obtain ⟨-, hparts⟩ := jumpsWithin_iff.1 hn
  refine of_mem_assignments? (fun b hb v hv => ?_) (fun ha hb => ?_) ha
  · have hvalue : v.JumpsWithin t := hparts v (List.mem_filterMap.2 ⟨b, hb, hv⟩)
    have hname : (⟨.identifier b.name, b.span⟩ : Node).JumpsWithin t :=
      jumpsWithin_leaf rfl rfl
    exact (jumpsWithin_iff_children rfl).2 (by simpa [Form.children] using ⟨hname, hvalue⟩)
  · exact jumpsWithin_sequence.2 ⟨ha, hb⟩

namespace Statements

/-- A tidied list asks no more of its surroundings than the list did: blocks are no targets, and
what leaves a loop is a function or holds no jump. -/
theorem stable_jumpsWithin : Stable (Node.JumpsWithin t) where
  block h := (jumpsWithin_iff.1 h).2
  survivors h := by
    apply forall_survivors
    · intro _ _ _ _ _
      exact Node.jumpsWithin_bare
    · intro l s hm
      obtain ⟨t', hl⟩ := h.of_mem_visited hm
      exact hl.declaration
  sequence ha hb := by
    have ha := Node.jumpsWithin_expression.1 ha
    have hb := Node.jumpsWithin_expression.1 hb
    exact Node.jumpsWithin_expression.2 (Node.jumpsWithin_sequence.2 ⟨ha, hb⟩)
  exit ha hv := by
    have ha := Node.jumpsWithin_expression.1 ha
    have hv := Node.jumpsWithin_exit.1 hv
    exact Node.jumpsWithin_exit.2 (Node.jumpsWithin_sequence.2 ⟨ha, hv⟩)

end Statements

namespace Hoist

variable {h : Hoist}

theorem jumpsWithin_mark (hn : n.JumpsWithin t) : (h.mark n).JumpsWithin t := by
  induction n using Node.induct generalizing t with
  | h n ih =>
    obtain ⟨form, span⟩ := n
    obtain ⟨hl, hparts⟩ := jumpsWithin_iff.1 hn
    rw [mark_mk, jumpsWithin_iff, Form.lands_withHoisted, Form.targets_withHoisted,
      Form.children_withHoisted]
    split
    · rw [Form.lands_map, Form.targets_map, Form.children_map]
      exact ⟨hl, List.forall_mem_map.2 fun c hc => ih c hc (hparts c hc)⟩
    · exact ⟨hl, hparts⟩

/-- Hoisting moves functions only. -/
theorem jumpsWithin_surfaceForm (hn : (⟨form, span⟩ : Node).JumpsWithin t) :
    ∀ c ∈ (h.surfaceForm span form).children, c.JumpsWithin (form.targets t) := by
  obtain ⟨-, hparts⟩ := jumpsWithin_iff.1 hn
  apply forall_mem_surfaceForm Node.jumpsWithin_bare
  · intro l s hl
    obtain ⟨c, hc, hl⟩ := List.mem_flatMap.1 hl
    obtain ⟨t', hl⟩ := (hparts c hc).of_mem_visited hl
    exact hl.declaration
  · intro c hc
    exact jumpsWithin_mark (hparts c hc)
  · intro _
    exact hparts

theorem targets_surfaceForm (form : Form Node) :
    (h.surfaceForm span form).targets t = form.targets t := by
  cases form <;> rfl

theorem lands_surfaceForm (form : Form Node) :
    (h.surfaceForm span form).Lands t ↔ form.Lands t := by
  cases form <;> rfl

end Hoist

/-- A tree whose jumps find what they go to in `t` or below becomes such a tree. -/
theorem gives_jumpsWithin (hn : n.JumpsWithin t) (s : Setting) :
    Gives (fun _ => True) s.Holds (n.reduce o) (Node.JumpsWithin t) := by
  induction n using Node.reduceInduct o generalizing t s with
  | unmarked form span hm ihParts =>
    refine gives_reduce (R := fun _ _ b => b.JumpsWithin (form.targets t)) hm (fun c hc => hc.1)
      (fun k a ha => ?_) fun form' hform' => ⟨Rule.tests_any form', fun m hm' => ?_⟩
    · have hpart := Hoist.jumpsWithin_surfaceForm hn a (Form.mem_children_of_parts ha)
      exact (ihParts k a ha hpart _).narrow fun _ => Setting.holds_child
    · refine Rule.jumpsWithin_simplified hm' (.mk ?_ fun c hc => ?_)
      · rw [hform'.lands, Hoist.lands_surfaceForm]
        exact (jumpsWithin_iff.1 hn).1
      · rw [hform'.targets, Hoist.targets_surfaceForm]
        obtain ⟨k, hk⟩ := Form.exists_part hc
        exact hform'.forall_parts (P := fun _ b => b.JumpsWithin (form.targets t))
          (fun _ _ _ h => h)
          (fun _ _ hbs => Statements.stable_jumpsWithin.of_tidied hbs fun _ _ h => h) k c hk
  | declaration l span hl =>
    refine (gives_reduce_declaration hl).mono ?_
    rintro _ rfl
    exact Node.jumpsWithin_empty
  | definitions kind bs span ihAssignments =>
    refine (gives_reduce_definitions (R := fun _ b => b.JumpsWithin t) fun a ha => ?_).mono ?_
    · exact ihAssignments a ha (hn.assignments ha) _
    · rintro _ ⟨a?, ha?, rfl⟩
      apply Rule.jumpsWithin_placeAssignments
      intro a ha
      obtain ⟨_, -, h⟩ := exists_of_rel ha? ha
      exact h

/-- A well-formed program whose jumps all find what they go to becomes such a program. -/
theorem minify_jumpClosed (o : Options) (n : Node) (hn : n.WellFormed) (hj : n.JumpClosed) :
    ∃ m, (minify o n).result = .ok m ∧ m.JumpClosed := by
  obtain ⟨m, -, hrun⟩ := (gives_wellFormed (o := o) hn).ok
  obtain ⟨ws, hrun⟩ := hrun [] Setting.holds_initial []
  have hm : ((n.reduce o).run .initial).1 = .ok m := congrArg Prod.fst hrun
  exact ⟨m, hm, (gives_jumpsWithin hj .initial).of_run Setting.holds_initial hm⟩

/-- `a:while(x){function f(){}continue a;}`, where the function leaves the loop and the block
goes. -/
theorem minify_labeled_loop_jumpClosed :
    let f := Build.declaration "f" [] []
    let next := (Form.jump .next (some "a")).node
    let n := Build.program [(Form.labeled ⟨"a", 1⟩
      (Build.whileDo (Build.identifier "x") (Build.block [f, next]))).node]
    n.WellFormed ∧ n.JumpClosed ∧ ∃ m, (minify .full n).result = .ok m ∧ m.JumpClosed := by
  intro f next n
  have hblock : (Build.block [f, next]).Fits false .statement := by
    refine .mk rfl rfl fun j a ha => ?_
    simp only [Form.parts, List.map_cons, List.map_nil, List.mem_cons, Prod.mk.injEq,
      List.not_mem_nil, or_false] at ha
    obtain ⟨rfl, rfl⟩ | ⟨rfl, rfl⟩ := ha
    · exact .leaf rfl rfl rfl
    · exact .leaf rfl rfl rfl
  have hn : n.WellFormed := by
    refine ⟨_, rfl, fun a ha => ?_⟩
    obtain rfl := List.mem_singleton.1 ha
    refine .mk rfl rfl fun j a ha => ?_
    obtain ⟨rfl, rfl⟩ := Prod.mk.inj (List.mem_singleton.1 ha)
    refine .mk rfl rfl fun j a ha => ?_
    simp only [Form.parts, List.mem_cons, Prod.mk.injEq, List.not_mem_nil, or_false] at ha
    obtain ⟨rfl, rfl⟩ | ⟨rfl, rfl⟩ := ha
    · exact .leaf rfl rfl rfl
    · exact hblock
  have hj : n.JumpClosed := by
    simp [Node.JumpClosed, n, f, next, Build.program, Build.whileDo, Build.block,
      Build.declaration, Build.identifier, Form.node, jumpsWithin_iff, Form.children, Form.targets,
      Form.Lands, Targets.Reach]
  exact ⟨hn, hj, minify_jumpClosed .full n hn hj⟩

end ScriptMinifier
