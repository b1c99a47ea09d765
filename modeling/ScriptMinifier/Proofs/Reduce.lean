import ScriptMinifier.Minify
import ScriptMinifier.Proofs.Rules

namespace ScriptMinifier

open Pass (Gives Yields Inside)

variable {F : Fault → Prop} {e : EnclosureKind} {C : Context → Prop} {o : Options}

/-- What the pass sees of a context: whether only the truth of the node at hand matters, and what
encloses it. -/
structure Setting where
  truth : Bool
  parent? : Option Enclosure

/-- Whether an enclosure asks its child for the truth alone, if it is itself asked so or not. -/
def EnclosureKind.asksTruth (e : EnclosureKind) (role : Role) (truth : Bool) : Bool :=
  match e with
  | branch | conditional | loop | forLoop => role = .condition
  | not => true
  | logical => truth
  | forIn | other => false

namespace Setting

def initial : Setting := ⟨false, none⟩

/-- The setting of a child. -/
def child (s : Setting) (e : EnclosureKind) (role : Role) : Setting :=
  ⟨e.asksTruth role s.truth, some ⟨e, role⟩⟩

/-- The contexts with this setting. -/
def Holds (s : Setting) (c : Context) : Prop := c.testsTruth = s.truth ∧ c.head? = s.parent?

theorem holds_initial : initial.Holds [] := ⟨rfl, rfl⟩

/-- Every context has a setting. -/
theorem holds_of (c : Context) : (⟨c.testsTruth, c.head?⟩ : Setting).Holds c := ⟨rfl, rfl⟩

theorem holds_child {s : Setting} {role : Role} {c : Context} (h : Inside e role s.Holds c) :
    (s.child e role).Holds c := by
  obtain ⟨c₀, ⟨ht, _⟩, rfl⟩ := h
  refine ⟨?_, rfl⟩
  cases e with
  | logical => exact ht
  | _ => rfl

end Setting

namespace Statements

/-- What pruning leaves of a statement that cannot be reached. -/
def survivors (n : Node) : List Node :=
  match n.form with
  | .declaration _ => [n]
  | _ => keptDeclarations n

/-- A statement leaves behind declarations that stood in it: functions as they are, others bare. -/
theorem forall_survivors {Q : Node → Prop} {n : Node}
    (hbare : ∀ kind bs hoisted s, ⟨.definitions kind bs hoisted, s⟩ ∈ n.visited searchesBelow →
      Q ⟨.definitions kind (bs.map Binding.bare) hoisted, s⟩)
    (hfunctions : ∀ l s, ⟨.declaration l, s⟩ ∈ n.visited searchesBelow →
      Q ⟨.declaration l, s⟩) : ∀ d ∈ survivors n, Q d := by
  have hkept : ∀ d ∈ keptDeclarations n, Q d := by
    intro d hd
    obtain ⟨⟨form, s⟩, hm, hmd⟩ := List.mem_filterMap.1 hd
    cases form with
    | definitions kind bs hoisted =>
      obtain rfl := Option.some.inj hmd
      exact hbare kind bs hoisted s hm
    | declaration l =>
      obtain rfl := Option.some.inj hmd
      exact hfunctions l s hm
    | _ => cases hmd
  obtain ⟨form, span⟩ := n
  cases form with
  | declaration l =>
    intro d hd
    obtain rfl := List.mem_singleton.1 hd
    apply hfunctions
    rw [Node.visited_eq]
    exact List.mem_cons_self
  | _ => exact hkept

/-- A statement list after pruning. -/
def pruned : List Node → List Node
  | [] => []
  | n :: ns => if n.isJump then n :: ns.flatMap survivors else n :: pruned ns

/-- A statement list after tidying, given the reduced statements. -/
def tidied (o : Options) (ns : List Node) : List Node :=
  let ns := if o.on .deadCode then pruned (flatten ns) else flatten ns
  if o.on .sequences then join ns else ns

/-- The list is what tidying makes of statements that correspond to those of another. -/
def Tidied {α : Type} (o : Options) (R : α → Node → Prop) (ns : List α) (ns' : List Node) : Prop :=
  ∃ ms, List.Forall₂ R ns ms ∧ ns' = tidied o ms

/-- Properties of statements that tidying a list keeps. -/
structure Stable (Q : Node → Prop) : Prop where
  block {body : List Node} {s : Span} : Q ⟨.block body, s⟩ → ∀ n ∈ body, Q n
  survivors {n : Node} : Q n → ∀ d ∈ survivors n, Q d
  sequence {a b : Node} {s t : Span} : Q ⟨.expression a, s⟩ → Q ⟨.expression b, t⟩ →
    Q ⟨.expression ⟨.sequence a b, s⟩, s⟩
  exit {kind : ExitKind} {a v : Node} {s t : Span} : Q ⟨.expression a, s⟩ →
    Q ⟨.exit kind (some v), t⟩ → Q ⟨.exit kind (some ⟨.sequence a v, s⟩), t⟩

namespace Stable

variable {Q : Node → Prop} {ns : List Node}

theorem flatten (hQ : Stable Q) (h : ∀ n ∈ ns, Q n) : ∀ n ∈ flatten ns, Q n := by
  induction ns with
  | nil => exact h
  | cons n ns ih =>
    obtain ⟨hn, hns⟩ := List.forall_mem_cons.1 h
    have hrest := ih hns
    obtain ⟨form, span⟩ := n
    cases form with
    | block body => exact List.forall_mem_append.2 ⟨hQ.block hn, hrest⟩
    | empty => exact hrest
    | _ => exact List.forall_mem_cons.2 ⟨hn, hrest⟩

theorem pruned (hQ : Stable Q) (h : ∀ n ∈ ns, Q n) : ∀ n ∈ pruned ns, Q n := by
  induction ns with
  | nil => exact h
  | cons n ns ih =>
    obtain ⟨hn, hns⟩ := List.forall_mem_cons.1 h
    rw [Statements.pruned]
    split
    · refine List.forall_mem_cons.2 ⟨hn, fun d hd => ?_⟩
      obtain ⟨m, hm, hd⟩ := List.mem_flatMap.1 hd
      exact hQ.survivors (hns m hm) d hd
    · exact List.forall_mem_cons.2 ⟨hn, ih hns⟩

theorem joinRuns (hQ : Stable Q) (h : ∀ n ∈ ns, Q n) : ∀ n ∈ joinRuns ns, Q n := by
  fun_induction Statements.joinRuns ns with
  | case1 a span b s ns ih =>
    obtain ⟨ha, hns⟩ := List.forall_mem_cons.1 h
    obtain ⟨hb, hns⟩ := List.forall_mem_cons.1 hns
    exact ih (List.forall_mem_cons.2 ⟨hQ.sequence ha hb, hns⟩)
  | case2 n ns _ ih =>
    obtain ⟨hn, hns⟩ := List.forall_mem_cons.1 h
    exact List.forall_mem_cons.2 ⟨hn, ih hns⟩
  | case3 => exact h

theorem join (hQ : Stable Q) (h : ∀ n ∈ ns, Q n) : ∀ n ∈ join ns, Q n := by
  have hruns := hQ.joinRuns h
  unfold Statements.join
  split
  · rename_i heq
    rw [heq] at hruns
    intro n hn
    obtain rfl := List.mem_singleton.1 hn
    exact hQ.exit (hruns _ (by simp)) (hruns _ (by simp))
  · exact hruns

theorem tidied (hQ : Stable Q) (h : ∀ n ∈ ns, Q n) : ∀ n ∈ tidied o ns, Q n := by
  unfold Statements.tidied
  split <;> split
  · exact hQ.join (hQ.pruned (hQ.flatten h))
  · exact hQ.pruned (hQ.flatten h)
  · exact hQ.join (hQ.flatten h)
  · exact hQ.flatten h

/-- What is tidied has the property if all reduced statements have it. -/
theorem of_tidied {α : Type} {R : α → Node → Prop} {as : List α} (hQ : Stable Q)
    (h : Tidied o R as ns) (hR : ∀ a n, R a n → Q n) : ∀ n ∈ ns, Q n := by
  obtain ⟨ms, hms, rfl⟩ := h
  refine hQ.tidied fun n hn => ?_
  obtain ⟨a, -, ha⟩ := exists_of_forall₂ hms hn
  exact hR a n ha

end Stable

section Runs

variable {J : (α : Type) → Pass α → (α → Prop) → Prop} (hJ : Pass.Compositional J)

include hJ

theorem judge_pruneStatement {n : Node} (h : ∀ d ∈ survivors n,
      J Unit (Pass.warn o .unreachableDeclarations d.span.start) fun _ => True) :
    J (List Node) (pruneStatement o n) (· = survivors n) := by
  have report (ds : List Node) (hds : ∀ d ∈ ds,
        J Unit (Pass.warn o .unreachableDeclarations d.span.start) fun _ => True) :
      J Unit (ds.forM fun d => Pass.warn o .unreachableDeclarations d.span.start)
        fun _ => True := by
    induction ds with
    | nil => exact hJ.pure trivial
    | cons d ds ih =>
      obtain ⟨hd, hds⟩ := List.forall_mem_cons.1 hds
      exact hJ.bind hd fun _ _ => ih hds
  obtain ⟨form, span⟩ := n
  cases form with
  | declaration l => exact hJ.pure rfl
  | _ => exact hJ.bind (report _ h) fun _ _ => hJ.pure rfl

theorem judge_prune {ns : List Node} (h : ∀ n ∈ ns, ∀ d ∈ survivors n,
      J Unit (Pass.warn o .unreachableDeclarations d.span.start) fun _ => True) :
    J (List Node) (prune o ns) (· = pruned ns) := by
  induction ns with
  | nil => exact hJ.pure rfl
  | cons n ns ih =>
    obtain ⟨-, hns⟩ := List.forall_mem_cons.1 h
    rw [prune, pruned]
    split
    · have hmap := hJ.mapM_list (R := fun m ds => ds = survivors m) fun m hm =>
        judge_pruneStatement hJ (hns m hm)
      apply hJ.bind hmap
      intro dss hdss
      apply hJ.pure
      rw [List.flatMap_def]
      congr 2
      clear ih h hmap hns
      induction hdss with
      | nil => rfl
      | cons h _ ih => rw [h, ih]; rfl
    · apply hJ.bind (ih hns)
      rintro _ rfl
      exact hJ.pure rfl

/-- Tidying warns where a statement stood that it drops. -/
theorem judge_tidy {α : Type} {step : α → Pass Node} {R : α → Node → Prop} {as : List α}
    (hstep : ∀ a ∈ as, J Node (Pass.inRole .other (step a)) (R a))
    (hwarn : ∀ ms, List.Forall₂ R as ms → ∀ n ∈ flatten ms, ∀ d ∈ survivors n,
      J Unit (Pass.warn o .unreachableDeclarations d.span.start) fun _ => True) :
    J (List Node) (tidy o step as) (Tidied o R as) := by
  apply hJ.bind (hJ.mapM_list hstep)
  intro ms hms
  dsimp only
  split
  · rename_i hd
    apply hJ.bind (judge_prune hJ (hwarn ms hms))
    rintro _ rfl
    exact hJ.pure ⟨ms, hms, by simp only [tidied, if_pos hd]⟩
  · rename_i hd
    exact hJ.pure ⟨ms, hms, by simp only [tidied, if_neg hd]⟩

end Runs

end Statements

/-- A property of each assignment that sequences pass on is one of the assignments of a `var`. -/
theorem of_mem_assignments? {Q : Node → Prop} {bs : List (Binding Node)} {a : Node}
    (hassign : ∀ b ∈ bs, ∀ v ∈ b.value,
      Q ⟨.assign .assign ⟨.identifier b.name, b.span⟩ v, b.span⟩)
    (hsequence : ∀ {a b}, Q a → Q b → Q ⟨.sequence a b, a.span⟩) (ha : a ∈ assignments? bs) :
    Q a := by
  have hall : ∀ m ∈ bs.filterMap Binding.assignment?, Q m := by
    intro m hm
    obtain ⟨b, hb, hbm⟩ := List.mem_filterMap.1 hm
    obtain ⟨v, hv, rfl⟩ := Option.map_eq_some_iff.1 hbm
    exact hassign b hb v hv
  have hjoin (n : Node) (ms : List Node) (hn : Q n) (hms : ∀ m ∈ ms, Q m) :
      Q (n.commaJoined ms) := by
    induction ms generalizing n with
    | nil => exact hn
    | cons m ms ih =>
      obtain ⟨hm, hms⟩ := List.forall_mem_cons.1 hms
      exact hsequence hn (ih m hm hms)
  rw [assignments?] at ha
  split at ha
  · cases ha
  · rename_i n ns hns
    rw [hns] at hall
    obtain rfl := Option.some.inj ha
    obtain ⟨hn, hns⟩ := List.forall_mem_cons.1 hall
    exact hjoin n ns hn hns

/-- Whether the pass replaces the form and does not reduce it. -/
def Form.isMarked {α : Type} : Form α → Bool
  | .definitions _ _ hoisted => hoisted
  | .declaration l => l.hoisted
  | _ => false

theorem Form.enclosureKind_map {α β : Type} (f : α → β) (form : Form α) :
    (form.map f).enclosureKind = form.enclosureKind := by
  cases form with
  | unary op x => cases op <;> rfl
  | _ => rfl

theorem Form.enclosureKind_withHoisted {α : Type} (b : Bool) (form : Form α) :
    (form.withHoisted b).enclosureKind = form.enclosureKind := by
  cases form <;> rfl

theorem Form.Lift.isMarked {form form' : Form Node} {R : Category → Node → Node → Prop}
    {L : List Node → List Node → Prop} (h : form.Lift R L form') :
    form'.isMarked = form.isMarked := by
  cases h <;> rfl

namespace Hoist

variable {h : Hoist} {span : Span}

theorem isMarked_surfaceForm (form : Form Node) :
    (h.surfaceForm span form).isMarked = form.isMarked := by
  cases form <;> rfl

/-- Marking as a map over one layer of syntax. -/
theorem mark_mk (form : Form Node) : h.mark ⟨form, span⟩ =
    ⟨(if searchesBelow ⟨form, span⟩ then form.map h.mark else form).withHoisted
      (form.isHoisted || h.hoists ⟨form, span⟩), span⟩ :=
  Node.run_amend _ _ _

/-- Marks stay outside nested functions. -/
theorem mark_function (l : Lambda Node) : h.mark ⟨.function l, span⟩ = ⟨.function l, span⟩ := by
  obtain ⟨name, params, body, usesArguments, hoisted⟩ := l
  rw [mark_mk]
  cases hoisted <;> rfl

/-- There is nothing to mark in an expression: what its functions declare is theirs. -/
theorem mark_eq {P : Form Node → Prop} {n : Node} (hn : n.BuiltOf P) : h.mark n = n := by
  induction n using Node.induct with
  | h n ih =>
    obtain ⟨form, span⟩ := n
    have hs := hn.isStatement
    by_cases ho : form.opensScope = true
    · cases form with
      | function l => exact mark_function l
      | declaration | program => cases hs
      | _ => cases ho
    · have hmap : form.map h.mark = form :=
        Form.map_eq_self fun c hc => ih c hc (hn.child (by simpa using ho) hc)
      have hsame (b : Bool) : form.withHoisted b = form := by
        cases form with
        | function => exact absurd rfl ho
        | definitions | declaration => cases hs
        | _ => rfl
      rw [mark_mk, hmap, ite_self, hsame]

section Surface

variable {Q : Node → Prop}

/-- What a scope holds after hoisting: a `var`, functions from below its statements, and the
statements with their marks. -/
theorem forall_mem_surface {body : List Node} (params : Option (List String))
    (hvars : Q ⟨.definitions .var ((h.varsIn body).map Binding.bare) false, span⟩)
    (hfunctions : ∀ l s, ⟨.declaration l, s⟩ ∈ reach body → Q ⟨.declaration l, s⟩)
    (hmark : ∀ n ∈ body, Q (h.mark n)) : ∀ n ∈ (h.surface params span body).1, Q n := by
  have hrest : ∀ n ∈ h.functionsIn body ++ body.map h.mark, Q n := by
    intro n hn
    rcases List.mem_append.1 hn with hn | hn
    · rw [functionsIn] at hn
      split at hn
      · obtain ⟨hr, hf⟩ := List.mem_filter.1 hn
        obtain ⟨form, s⟩ := n
        cases form with
        | declaration l => exact hfunctions l s hr
        | _ => cases hf
      · cases hn
    · obtain ⟨m, hm, rfl⟩ := List.mem_map.1 hn
      exact hmark m hm
  cases params with
  | some params => exact hrest
  | none =>
    intro n hn
    rcases List.mem_append.1 hn with hn | hn
    · rw [declaration] at hn
      split at hn
      · cases hn
      · obtain rfl := List.mem_singleton.1 hn
        exact hvars
    · exact hrest n hn

/-- As `forall_mem_surface`, for all forms; one that opens no scope holds what it held before. -/
theorem forall_mem_surfaceForm {form : Form Node}
    (hvars : Q ⟨.definitions .var ((h.varsIn form.children).map Binding.bare) false, span⟩)
    (hfunctions : ∀ l s, ⟨.declaration l, s⟩ ∈ reach form.children → Q ⟨.declaration l, s⟩)
    (hmark : ∀ n ∈ form.children, Q (h.mark n))
    (hsame : form.opensScope = false → ∀ c ∈ form.children, Q c) :
    ∀ c ∈ (h.surfaceForm span form).children, Q c := by
  cases form with
  | program body | declaration l | function l =>
    exact forall_mem_surface _ hvars hfunctions hmark
  | _ => exact hsame rfl

end Surface

end Hoist

theorem Form.mem_parts_of_body? {α : Type} {form : Form α} {body : List α} {a : α}
    (hb : body ∈ form.body?) (ha : a ∈ body) : (.statement, a) ∈ form.parts := by
  cases form <;> simp_all [Form.body?, Form.parts]

theorem Form.mem_children_of_parts {α : Type} {form : Form α} {k : Category} {a : α}
    (h : (k, a) ∈ form.parts) : a ∈ form.children := by
  cases form with
  | loop kind c body => cases kind <;> simp_all [Form.parts, Form.children] <;> tauto
  | _ => simp_all [Form.parts, Form.children] <;> tauto

theorem Form.exists_part {α : Type} {form : Form α} {a : α} (h : a ∈ form.children) :
    ∃ k, (k, a) ∈ form.parts := by
  cases form with
  | loop kind c body => cases kind <;> simp_all [Form.parts, Form.children] <;> grind
  | _ => simp_all [Form.parts, Form.children] <;> grind

namespace Node

/-- Induction along the pass: over what a scope holds after hoisting, and over the assignments that
stand for a hoisted declaration. -/
theorem reduceInduct (o : Options) {motive : Node → Prop}
    (unmarked : ∀ form span, form.isMarked = false →
      (∀ k a, (k, a) ∈ (o.hoist.surfaceForm span form).parts → motive a) → motive ⟨form, span⟩)
    (declaration : ∀ l span, l.hoisted = true → motive ⟨.declaration l, span⟩)
    (definitions : ∀ kind bs span, (∀ a ∈ assignments? bs, motive a) →
      motive ⟨.definitions kind bs true, span⟩) (n : Node) : motive n := by
  induction hw : n.weight using Nat.strongRecOn generalizing n with
  | _ w ih =>
    subst hw
    obtain ⟨form, span⟩ := n
    have hunmarked (hm : form.isMarked = false) : motive ⟨form, span⟩ := by
      refine unmarked form span hm fun k a ha => ?_
      have hlight : a.weight < (⟨form, span⟩ : Node).weight :=
        Hoist.weight_lt_of_mem_surfaceForm (Form.mem_children_of_parts ha)
      exact ih a.weight hlight a rfl
    cases form with
    | declaration l =>
      cases hl : l.hoisted with
      | false => exact hunmarked hl
      | true => exact declaration l span hl
    | definitions kind bs hoisted =>
      cases hoisted with
      | false => exact hunmarked rfl
      | true =>
        refine definitions kind bs span fun a ha => ?_
        exact ih a.weight (weight_lt_of_assignments? ha) a rfl
    | _ => exact hunmarked rfl

section Work

variable {form : Form Node} {span : Span}

theorem work_unmarked (hm : form.isMarked = false) :
    (⟨form, span⟩ : Node).work o = .rebuild (o.hoist.surfaceForm span form) := by
  simp only [work, form_mk, span_mk]
  split
  · cases hm
  · cases hm
  · rfl

theorem work_declaration {l : Lambda Node} (hl : l.hoisted = true) :
    (⟨.declaration l, span⟩ : Node).work o = .drop := by
  obtain ⟨name, params, body, usesArguments, hoisted⟩ := l
  obtain rfl : hoisted = true := hl
  rfl

theorem work_definitions {kind : DeclarationKind} {bs : List (Binding Node)} :
    (⟨.definitions kind bs true, span⟩ : Node).work o = .replace bs (assignments? bs) := rfl

theorem reduce_unmarked (hm : form.isMarked = false) :
    (⟨form, span⟩ : Node).reduce o = Pass.within ⟨form.enclosureKind, .other⟩ (do
      let form' ← (o.hoist.surfaceForm span form).traverse
        (fun role c => Pass.inRole role (c.reduce o)) (Statements.tidy o (reduce o))
      Rule.simplify o form' span) := by
  rw [reduce_eq, work_unmarked hm, reduceBy]
  simp only [pure_bind]
  rfl

theorem reduce_declaration {l : Lambda Node} (hl : l.hoisted = true) :
    (⟨.declaration l, span⟩ : Node).reduce o =
      Pass.within ⟨.other, .other⟩ (return .empty span) := by
  rw [reduce_eq, work_declaration hl, reduceBy]
  simp only [pure_bind]
  rfl

theorem reduce_definitions {kind : DeclarationKind} {bs : List (Binding Node)} :
    (⟨.definitions kind bs true, span⟩ : Node).reduce o = Pass.within ⟨.other, .other⟩ (do
      let parent? := (← Pass.context).outer? 0
      let a? ← (assignments? bs).mapM fun c => Pass.inRole .other (c.reduce o)
      return Rule.placeAssignments parent? bs a? span) := by
  rw [reduce_eq, work_definitions, reduceBy]
  simp only [pure_bind]
  rfl

end Work

end Node

/-- An unmarked node becomes what the rule for its form makes of its reduced parts. -/
theorem gives_reduce {form : Form Node} {span : Span} {truth : Bool}
    {R : Category → Node → Node → Prop} {Q : Node → Prop} (hm : form.isMarked = false)
    (hC : ∀ c, C c → c.testsTruth = truth)
    (hp : ∀ k a, (k, a) ∈ (o.hoist.surfaceForm span form).parts →
      Gives F (Inside form.enclosureKind k.role C) (a.reduce o) (R k a))
    (hs : ∀ form', (o.hoist.surfaceForm span form).Lift R
        (Statements.Tidied o (R .statement)) form' →
      Rule.Tests (Rule.Evaluable F) form' ∧
        ∀ m, Rule.Simplified o truth span form' m → Q m) :
    Gives F C ((⟨form, span⟩ : Node).reduce o) Q := by
  have htraverse : Yields F form.enclosureKind C
      ((o.hoist.surfaceForm span form).traverse
        (fun role c => Pass.inRole role (c.reduce o)) (Statements.tidy o (Node.reduce o)))
      ((o.hoist.surfaceForm span form).Lift R (Statements.Tidied o (R .statement))) := by
    refine Yields.compositional.traverse (fun k a ha => .inRole (hp k a ha)) fun body hb => ?_
    exact Statements.judge_tidy Yields.compositional
      (fun a ha => .inRole (hp .statement a (Form.mem_parts_of_body? hb ha)))
      fun _ _ _ _ _ _ => .warn
  rw [Node.reduce_unmarked hm]
  refine Gives.within (htraverse.bind fun form' hform' => ?_)
  obtain ⟨htests, hQ⟩ := hs form' hform'
  have hsimplify : Yields F form.enclosureKind C (Rule.simplify o form' span)
      (Rule.Simplified o truth span form') :=
    Rule.judge_simplify (Yields.grounded hC) trivial (fun _ _ => trivial) htests
  exact hsimplify.mono hQ

theorem gives_reduce_declaration {l : Lambda Node} {span : Span} (hl : l.hoisted = true) :
    Gives F C ((⟨.declaration l, span⟩ : Node).reduce o) (· = .empty span) := by
  rw [Node.reduce_declaration hl]
  exact .within (.pure rfl)

theorem gives_reduce_definitions {kind : DeclarationKind} {bs : List (Binding Node)} {span : Span}
    {s : Setting} {R : Node → Node → Prop}
    (ha : ∀ a ∈ assignments? bs, Gives F (s.child .other .other).Holds (a.reduce o) (R a)) :
    Gives F s.Holds ((⟨.definitions kind bs true, span⟩ : Node).reduce o) fun m =>
      ∃ a?, Option.Rel R (assignments? bs) a? ∧
        m = Rule.placeAssignments s.parent? bs a? span := by
  rw [Node.reduce_definitions]
  refine Gives.within ?_
  refine .context (g := (assignments? bs).mapM (fun c => Pass.inRole .other (c.reduce o)) >>=
    fun a? => pure (Rule.placeAssignments s.parent? bs a? span)) (fun c hc role => ?_) ?_
  · have hout : Context.outer? 0 (⟨.other, role⟩ :: c) = s.parent? := by
      rw [← hc.2]
      cases c <;> rfl
    exact hout ▸ rfl
  · have hmap : Yields F .other s.Holds
        ((assignments? bs).mapM fun c => Pass.inRole .other (c.reduce o))
        (Option.Rel R (assignments? bs)) :=
      Yields.compositional.mapM_option fun a h =>
        .inRole ((ha a h).narrow fun _ => Setting.holds_child)
    exact hmap.bind fun a? h => .pure ⟨a?, h, rfl⟩

/-- Whatever the tree, the pass comes to one end in all contexts of a setting, whatever warnings
came before, and leaves the context as it was. -/
theorem gives_reduce_any (n : Node) (s : Setting) :
    Gives (fun _ => True) s.Holds (n.reduce o) fun _ => True := by
  induction n using Node.reduceInduct o generalizing s with
  | unmarked form span hm ihParts =>
    refine gives_reduce (R := fun _ _ _ => True) hm (fun c hc => hc.1)
      (fun k a ha => (ihParts k a ha _).narrow fun _ => Setting.holds_child) fun form' _ => ?_
    exact ⟨Rule.tests_any form', fun _ _ => trivial⟩
  | declaration l span hl => exact (gives_reduce_declaration hl).mono fun _ _ => trivial
  | definitions kind bs span ihAssignments =>
    refine (gives_reduce_definitions (R := fun _ _ => True) fun a ha => ?_).mono
      fun _ _ => trivial
    exact ihAssignments a ha _

end ScriptMinifier
