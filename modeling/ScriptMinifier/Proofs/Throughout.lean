import ScriptMinifier.Proofs.Reduce

namespace ScriptMinifier

open Pass (Gives)

/-- `P` holds of every node that a walk visits which goes below the forms that `below` names. -/
def Node.Throughout (below : Form Node → Bool) (P : Form Node → Prop) (n : Node) : Prop :=
  ∀ m ∈ n.visited fun m => below m.form, P m.form

/-- Forms that hold no statement list and declare nothing. -/
def Form.isSimple {α : Type} : Form α → Bool
  | definitions .. => false
  | form => form.body?.isNone

/-- Forms that the rules make of any parts, whatever the options. -/
def Form.isOrdinary {α : Type} : Form α → Bool
  | expression _ | empty | exit .. | forLoop .. | string _ | number _ | null | undefined
  | identifier _ | unary .. | binary .. | assign .. | sequence .. | member .. => true
  | _ => false

/-- Forms that the pass puts together again as it finds them, with their parts reduced. -/
def Form.isRebuilt {α : Type} : Form α → Bool
  | debugger | branch .. | loop .. | boolean _ | conditional .. | index .. => false
  | form => !form.isOrdinary

/-- The walk enters all that is made anew, and what is made anew has the property. -/
structure Form.Persists (below : Form Node → Bool) (P : Form Node → Prop) : Prop where
  simple {form : Form Node} : form.isSimple = true → below form = true ∧ P form
  block {body : List Node} : below (.block body) = true
  bare {kind : DeclarationKind} {bs : List (Binding Node)} {hoisted : Bool} :
    P (.definitions kind bs hoisted) → P (.definitions kind (bs.map Binding.bare) hoisted)
  search {n : Node} : Statements.searchesBelow n = true → below n.form = true

/-- As `Persists`, for a property that a form has only where the rule for it has nothing left to
do. -/
structure Form.Sustains (o : Options) (below : Form Node → Bool) (P : Form Node → Prop) : Prop where
  enters {form : Form Node} : form.isSimple = true → below form = true
  block {body : List Node} : below (.block body) = true
  search {n : Node} : Statements.searchesBelow n = true → below n.form = true
  ordinary {form : Form Node} : form.isOrdinary = true → P form
  bare {kind : DeclarationKind} {bs : List (Binding Node)} {hoisted : Bool} :
    P (.definitions kind bs hoisted) → P (.definitions kind (bs.map Binding.bare) hoisted)
  debugger : o.on .dropDebugger = false → P .debugger
  boolean {b : Bool} : o.on .booleans = false → P (.boolean b)
  index {subject property : Node} : (o.on .properties = true → ∀ name s,
    property = ⟨.string name, s⟩ → Text.isIdentifier name = false) → P (.index subject property)
  branch {c body : Node} {alternative : Option Node} :
    (o.on .conditionals = true → o.value? c = none) → P (.branch c body alternative)
  loop {kind : LoopKind} {c body : Node} : (o.on .loops = true → ∀ v, o.value? c = some v →
    v.truthy = false ∧ kind = .doWhile) → P (.loop kind c body)
  conditional {c a b : Node} :
    (o.on .conditionals = true → o.value? c = none) → P (.conditional c a b)
  branches {c a b a' b' : Node} : P (.conditional c a b) → P (.conditional c a' b')

variable {below : Form Node → Bool} {P : Form Node → Prop} {o : Options} {truth : Bool}
  {span : Span} {n m : Node}

namespace Node

theorem throughout_iff {form : Form Node} : (⟨form, span⟩ : Node).Throughout below P ↔
    P form ∧ (below form = true → ∀ c ∈ form.children, c.Throughout below P) := by
  unfold Throughout
  rw [visited_eq, List.forall_mem_cons]
  refine and_congr_right fun _ => ?_
  by_cases hb : below form = true
  · simp only [form_mk, hb, if_true, List.forall_mem_flatMap, children, true_implies]
  · simp [hb]

theorem Throughout.self (h : n.Throughout below P) : P n.form := by
  obtain ⟨form, span⟩ := n
  exact (throughout_iff.1 h).1

/-- A property of a walk is one of every narrower walk from a node of it. -/
theorem Throughout.of_mem_visited (h : n.Throughout below P) {descend : Node → Bool}
    (hd : ∀ m, descend m = true → below m.form = true) (hm : m ∈ n.visited descend) :
    m.Throughout below P := by
  induction n using Node.induct with
  | h n ih =>
    rw [visited_eq] at hm
    rcases List.mem_cons.1 hm with rfl | hm
    · exact h
    · by_cases hn : descend n = true
      · rw [if_pos hn] at hm
        obtain ⟨c, hc, hmc⟩ := List.mem_flatMap.1 hm
        obtain ⟨form, span⟩ := n
        exact ih c hc ((throughout_iff.1 h).2 (hd _ hn) c hc) hmc
      · simp [hn] at hm

end Node

open Node (throughout_iff)

theorem Form.isSimple_of_isOrdinary {α : Type} {form : Form α} (h : form.isOrdinary = true) :
    form.isSimple = true := by
  cases form <;> first | rfl | cases h

namespace Form.Sustains

theorem of_children (hP : Sustains o below P) {form : Form Node} (hf : form.isSimple = true)
    (h : (⟨form, span⟩ : Node).Throughout below P) : ∀ c ∈ form.children, c.Throughout below P :=
  (throughout_iff.1 h).2 (hP.enters hf)

/-- An ordinary form has the property throughout if its children have. -/
theorem iff_children (hP : Sustains o below P) {form : Form Node} (hf : form.isOrdinary = true) :
    (⟨form, span⟩ : Node).Throughout below P ↔ ∀ c ∈ form.children, c.Throughout below P := by
  rw [throughout_iff]
  exact ⟨fun h => h.2 (hP.enters (isSimple_of_isOrdinary hf)), fun h => ⟨hP.ordinary hf, fun _ => h⟩⟩

theorem leaf (hP : Sustains o below P) {form : Form Node} (hf : form.isOrdinary = true)
    (hc : form.children = []) : (⟨form, span⟩ : Node).Throughout below P := by
  rw [hP.iff_children hf, hc]
  exact fun c h => absurd h List.not_mem_nil

theorem keeps (hP : Sustains o below P) : Rule.Keeps o (Node.Throughout below P) where
  literal v span := by
    cases v with
    | boolean b =>
      change Node.Throughout below P (if o.on .booleans then _ else _)
      split
      · refine (hP.iff_children rfl).2 ?_
        simpa [Form.children] using hP.leaf rfl rfl
      · rename_i hoff
        refine throughout_iff.2 ⟨hP.boolean (by simpa using hoff), fun _ c hc => ?_⟩
        exact absurd hc List.not_mem_nil
    | _ => exact hP.leaf rfl rfl
  not := (hP.iff_children rfl).trans List.forall_mem_singleton
  sequence := (hP.iff_children rfl).trans (by simp [Form.children])
  parts h := by simpa [Form.children] using hP.of_children rfl h
  branches h ha hb := by
    have hc := hP.of_children rfl h
    refine throughout_iff.2 ⟨hP.branches h.self, fun _ => ?_⟩
    simp_all [Form.children]
  undecided hopen hc ha hb := by
    refine throughout_iff.2 ⟨hP.conditional hopen, fun _ => ?_⟩
    simpa [Form.children] using ⟨hc, ha, hb⟩
  operands h := by simpa [Form.children] using (hP.iff_children rfl).1 h
  replace _ _ hl hr := (hP.iff_children rfl).2 (by simpa [Form.children] using ⟨hl, hr⟩)

theorem expression (hP : Sustains o below P) {x : Node} :
    (⟨.expression x, span⟩ : Node).Throughout below P ↔ x.Throughout below P :=
  (hP.iff_children rfl).trans List.forall_mem_singleton

theorem exit (hP : Sustains o below P) {kind : ExitKind} {x : Node} :
    (⟨.exit kind (some x), span⟩ : Node).Throughout below P ↔ x.Throughout below P :=
  (hP.iff_children rfl).trans (by simp [Form.children])

theorem survivors (hP : Sustains o below P) (h : n.Throughout below P) :
    ∀ d ∈ Statements.survivors n, d.Throughout below P := by
  apply Statements.forall_survivors
  · intro kind bs hoisted s hm
    have hm' := h.of_mem_visited (fun _ => hP.search) hm
    refine throughout_iff.2 ⟨hP.bare (throughout_iff.1 hm').1, fun _ c hc => ?_⟩
    simp [Form.children, List.filterMap_map, Function.comp_def] at hc
  · intro l s hm
    exact h.of_mem_visited (fun _ => hP.search) hm

/-- The rules keep the property. -/
theorem carries (hP : Sustains o below P) :
    Rule.Carries o (Node.Throughout below P) (Node.Throughout below P) where
  toKeeps := hP.keeps
  logical _ hl hr := (hP.iff_children rfl).2 (by simpa [Form.children] using ⟨hl, hr⟩)
  expression := hP.expression
  exit hx hy hz := hP.exit.2 (hz (hP.exit.1 hx) (hP.exit.1 hy))
  empty := hP.leaf rfl rfl
  branch hopen hc hb ha := by
    refine throughout_iff.2 ⟨hP.branch hopen, fun _ => ?_⟩
    simpa [Form.children] using ⟨hc, hb, ha⟩

/-- Tidying a list keeps the property. -/
theorem stable (hP : Sustains o below P) : Statements.Stable (Node.Throughout below P) where
  block h := (throughout_iff.1 h).2 hP.block
  survivors := hP.survivors
  sequence ha hb := hP.expression.2 (hP.keeps.sequence.2 ⟨hP.expression.1 ha, hP.expression.1 hb⟩)
  exit ha hv := hP.exit.2 (hP.keeps.sequence.2 ⟨hP.expression.1 ha, hP.exit.1 hv⟩)

/-- What stands for a marked `var` has the property if its assignments have it. -/
theorem placeAssignments (hP : Sustains o below P) {parent? : Option Enclosure}
    {bs : List (Binding Node)} {a? : Option Node} (ha : ∀ a ∈ a?, a.Throughout below P) :
    (Rule.placeAssignments parent? bs a? span).Throughout below P := by
  unfold Rule.placeAssignments
  split
  · exact ha _ rfl
  · split
    · exact hP.leaf rfl rfl
    · exact hP.leaf rfl rfl
  · exact ha _ rfl
  · exact hP.expression.2 (ha _ rfl)
  · exact hP.leaf rfl rfl

/-- The assignments of a `var` have the property if its initializers have it. -/
theorem assigned (hP : Sustains o below P) {bs : List (Binding Node)} {a : Node}
    (hbs : ∀ b ∈ bs, ∀ v ∈ b.value, v.Throughout below P) (ha : a ∈ assignments? bs) :
    a.Throughout below P := by
  refine of_mem_assignments? (fun b hb v hv => ?_) (fun ha hb => hP.keeps.sequence.2 ⟨ha, hb⟩) ha
  refine (hP.iff_children rfl).2 ?_
  simpa [Form.children] using ⟨hP.leaf rfl rfl, hbs b hb v hv⟩

theorem gives_declaration (hP : Sustains o below P) {F : Fault → Prop} {C : Context → Prop}
    {l : Lambda Node} {span : Span} (hl : l.hoisted = true) :
    Gives F C ((⟨.declaration l, span⟩ : Node).reduce o) (Node.Throughout below P) := by
  refine (gives_reduce_declaration hl).mono ?_
  rintro _ rfl
  exact hP.leaf rfl rfl

/-- What a hoisted `var` becomes has the property if its assignments come to have it. -/
theorem gives_definitions (hP : Sustains o below P) {F : Fault → Prop} {s : Setting}
    {kind : DeclarationKind} {bs : List (Binding Node)} {span : Span}
    (ha : ∀ a ∈ assignments? bs,
      Gives F (s.child .other .other).Holds (a.reduce o) (Node.Throughout below P)) :
    Gives F s.Holds ((⟨.definitions kind bs true, span⟩ : Node).reduce o)
      (Node.Throughout below P) := by
  refine (gives_reduce_definitions (R := fun _ m => m.Throughout below P) ha).mono ?_
  rintro _ ⟨a?, ha, rfl⟩
  refine hP.placeAssignments fun a ha' => ?_
  obtain ⟨_, -, hthroughout⟩ := exists_of_rel ha ha'
  exact hthroughout

end Form.Sustains

/-- Simple forms, whatever the rules for them. -/
theorem Form.Persists.sustains (hP : Form.Persists below P) (o : Options) :
    Form.Sustains o below P where
  enters hf := (hP.simple hf).1
  block := hP.block
  search := hP.search
  ordinary hf := (hP.simple (isSimple_of_isOrdinary hf)).2
  bare := hP.bare
  debugger _ := (hP.simple rfl).2
  boolean _ := (hP.simple rfl).2
  index _ := (hP.simple rfl).2
  branch _ := (hP.simple rfl).2
  loop _ := (hP.simple rfl).2
  conditional _ := (hP.simple rfl).2
  branches _ := (hP.simple rfl).2

/-- A property of forms that no rule makes. -/
theorem Form.sustains_of_rebuilt (hP : ∀ form : Form Node, form.isRebuilt = false → P form)
    (hbare : ∀ kind bs hoisted, P (.definitions kind bs hoisted) →
      P (.definitions kind (bs.map Binding.bare) hoisted)) :
    Form.Sustains o (fun _ => true) P where
  enters _ := rfl
  block := rfl
  search _ := rfl
  ordinary {form} hf := hP form (by cases form <;> first | rfl | cases hf)
  bare := hbare _ _ _
  debugger _ := hP _ rfl
  boolean _ := hP _ rfl
  index _ := hP _ rfl
  branch _ := hP _ rfl
  loop _ := hP _ rfl
  conditional _ := hP _ rfl
  branches _ := hP _ rfl

namespace Rule

variable {c body : Node} {alternative : Option Node}

theorem Looped.throughout (hP : Form.Sustains o below P) {kind : LoopKind}
    (h : Looped o kind c body span m) (hc : c.Throughout below P)
    (hb : body.Throughout below P) : m.Throughout below P := by
  cases h with
  | forever => exact (hP.iff_children rfl).2 (by simpa [Form.children] using hb)
  | never => exact hP.leaf rfl rfl
  | same hopen =>
    refine throughout_iff.2 ⟨hP.loop hopen, fun _ => ?_⟩
    cases kind <;> simp [Form.children, hc, hb]

/-- What a form becomes has the property throughout if its children have and, should it be put
together again as it is, it has it itself. A block of one statement need not have it, for the
statement takes its place. -/
theorem throughout_of_simplified (hP : Form.Sustains o below P) {form : Form Node}
    (hform : form.isRebuilt = true → (∀ x, form ≠ .block [x]) → P form)
    (hc : below form = true → ∀ c ∈ form.children, c.Throughout below P)
    (h : Simplified o truth span form m) : m.Throughout below P := by
  have hrebuilt (hf : form.isRebuilt = true) (hne : ∀ x, form ≠ .block [x]) :
      (⟨form, span⟩ : Node).Throughout below P := throughout_iff.2 ⟨hform hf hne, hc⟩
  have hordinary (hf : form.isOrdinary = true) : (⟨form, span⟩ : Node).Throughout below P :=
    throughout_iff.2 ⟨hP.ordinary hf, hc⟩
  cases form with
  | debugger =>
    obtain rfl := h
    split
    · exact hP.leaf rfl rfl
    · rename_i hoff
      exact throughout_iff.2 ⟨hP.debugger (by simpa using hoff), hc⟩
  | labeled label body =>
    obtain rfl := h
    split
    · exact hc (hP.enters rfl) body (List.mem_singleton_self _)
    · exact hrebuilt rfl (by simp)
  | block body =>
    obtain _ | ⟨x, _ | ⟨y, rest⟩⟩ := body
    · obtain rfl := h
      exact hrebuilt rfl (by simp)
    · obtain rfl := h
      exact hc hP.block _ (List.mem_singleton_self _)
    · obtain rfl := h
      exact hrebuilt rfl (by simp)
  | branch c body alternative =>
    have hparts := hc (hP.enters rfl)
    exact hP.carries.branched h (hparts c (by simp [Form.children]))
      (hparts body (by simp [Form.children])) fun a ha => hparts a (by simp_all [Form.children])
  | loop kind c body =>
    have hparts := hc (hP.enters rfl)
    exact Looped.throughout hP h (hparts c (by cases kind <;> simp [Form.children]))
      (hparts body (by cases kind <;> simp [Form.children]))
  | forLoop init c step body =>
    obtain rfl := h
    have hparts := hc (hP.enters rfl)
    refine (hP.iff_children rfl).2 fun a ha => hparts a ?_
    simp only [Form.children, List.mem_append, Option.mem_toList, Option.filter_eq_some_iff,
      List.mem_singleton] at ha ⊢
    tauto
  | boolean b =>
    obtain rfl := h
    exact hP.keeps.truthLiteral b
  | unary op x => exact hP.keeps.prefixed h (hordinary rfl)
  | binary op l r => exact hP.keeps.combined h (hordinary rfl)
  | conditional c a b =>
    have hparts := hc (hP.enters rfl)
    exact hP.keeps.chosen h (hparts c (by simp [Form.children]))
      (hparts a (by simp [Form.children])) (hparts b (by simp [Form.children]))
  | index subject property =>
    obtain rfl := h
    have hparts := hc (hP.enters rfl)
    have hmember (name : String) : (⟨.member subject name, span⟩ : Node).Throughout below P := by
      refine (hP.iff_children rfl).2 fun c hc' => hparts c ?_
      simp_all [Form.children]
    have hindex (hname : o.on .properties = true → ∀ name s, property = ⟨.string name, s⟩ →
        Text.isIdentifier name = false) :
        (⟨.index subject property, span⟩ : Node).Throughout below P :=
      throughout_iff.2 ⟨hP.index hname, fun _ => hparts⟩
    unfold index
    split
    · split
      · exact hmember _
      · refine hindex fun hon name s hname => ?_
        cases hname
        simp_all
    · refine hindex fun _ name s hname => ?_
      simp_all
  | expression | empty | exit | string | number | null | undefined | identifier | assign | sequence
  | member =>
    obtain rfl := h
    exact hordinary rfl
  | _ =>
    obtain rfl := h
    exact hrebuilt rfl (by simp)

/-- As `throughout_of_simplified`, for a property that every simple form has. -/
theorem throughout_simplified (hP : Form.Persists below P) {form : Form Node}
    (hform : (∀ x, form ≠ .block [x]) → P form)
    (hc : below form = true → ∀ c ∈ form.children, c.Throughout below P)
    (h : Simplified o truth span form m) : m.Throughout below P :=
  throughout_of_simplified (hP.sustains o) (fun _ => hform) hc h

end Rule

/-- Where reduced parts have the property, the parts of what they are put together to have it. -/
theorem Form.Lift.throughout (hP : Form.Sustains o below P) {form form' : Form Node}
    {R : Category → Node → Node → Prop} (hR : ∀ k a b, R k a b → b.Throughout below P)
    (h : form.Lift R (Statements.Tidied o (R .statement)) form') :
    ∀ c ∈ form'.children, c.Throughout below P := by
  intro c hc
  obtain ⟨k, hk⟩ := Form.exists_part hc
  refine h.forall_parts (P := fun _ b => b.Throughout below P) hR (fun as bs hbs => ?_) k c hk
  exact hP.stable.of_tidied hbs fun a b => hR _ a b

namespace Hoist

variable {h : Hoist}

/-- Where marking keeps the property, a scope has it throughout after hoisting if it had it before. -/
theorem throughout_surfaceForm (hd : ∀ bs, P (.definitions .var bs false))
    (hb : ∀ n, searchesBelow n = true → below n.form = true) {form : Form Node}
    (hform : ∀ c ∈ form.children, c.Throughout below P)
    (hmark : ∀ c ∈ form.children, (h.mark c).Throughout below P) :
    ∀ c ∈ (h.surfaceForm span form).children, c.Throughout below P := by
  refine forall_mem_surfaceForm (throughout_iff.2 ⟨hd _, fun _ c hc => ?_⟩) (fun l s hl => ?_) hmark
    fun _ => hform
  · simp [Form.children, List.filterMap_map, Function.comp_def] at hc
  · obtain ⟨n, hn, hl⟩ := List.mem_flatMap.1 hl
    exact (hform n hn).of_mem_visited hb hl

end Hoist

end ScriptMinifier
