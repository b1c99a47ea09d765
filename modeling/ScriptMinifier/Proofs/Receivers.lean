import ScriptMinifier.Proofs.Declared
import ScriptMinifier.Proofs.Throughout

namespace ScriptMinifier

open Pass (Gives)

variable {o : Options} {h : Hoist} {n m : Node} {k : Category} {span : Span} {c₀ : Context}

/-- Whether a form names a member of an object. -/
def Form.isAccess {α : Type} : Form α → Bool
  | .member .. | .index .. => true
  | _ => false

/-- An expression is a member, or conditions with constant values select one. -/
inductive Node.Exposes (o : Options) : Node → Prop
  | access {n : Node} : n.form.isAccess = true → Exposes o n
  | selected {c a b : Node} {span : Span} {v : Primitive} : o.on .conditionals = true →
    o.verdict? .conditional c = some v → Exposes o (if v.truthy then a else b) →
    Exposes o ⟨.conditional c a b, span⟩

namespace Node

/-- Of all other expressions only members are exposed. -/
theorem exposes_iff {form : Form Node} (hc : form.enclosureKind ≠ .conditional) :
    (⟨form, span⟩ : Node).Exposes o ↔ form.isAccess = true := by
  constructor
  · intro h
    cases h with
    | access h => exact h
    | selected => exact absurd rfl hc
  · exact fun h => .access h

theorem exposes_conditional_iff {c a b : Node} : (⟨.conditional c a b, span⟩ : Node).Exposes o ↔
    o.on .conditionals = true ∧ ∃ v, o.verdict? .conditional c = some v ∧
      (if v.truthy then a else b).Exposes o := by
  constructor
  · intro h
    cases h with
    | access h => cases h
    | selected hon hv h => exact ⟨hon, _, hv, h⟩
  · rintro ⟨hon, v, hv, h⟩
    exact .selected hon hv h

end Node

namespace Rule

/-- A literal is no member. -/
theorem isAccess_shortenBoolean (hn : n.form.isAccess = false) :
    (shortenBoolean o n).form.isAccess = false := by
  unfold shortenBoolean
  split
  · split <;> rfl
  · exact hn

theorem isAccess_folded (hn : n.form.isAccess = false) :
    (shortenBoolean o (o.folded n)).form.isAccess = false := by
  refine isAccess_shortenBoolean ?_
  unfold Options.folded
  split
  · rename_i v _
    cases v <;> rfl
  · exact hn

/-- Where the value of an expression is asked, only the rule for `?:` turns it into another of its
parts. -/
theorem isAccess_simplified {form : Form Node} (hs : form.isStatement = false)
    (hc : form.enclosureKind ≠ .conditional) (h : Simplified o false span form m) :
    m.form.isAccess = form.isAccess := by
  cases form with
  | conditional => exact absurd rfl hc
  | boolean b =>
    obtain rfl := h
    exact isAccess_shortenBoolean rfl
  | unary op x =>
    cases h with
    | unwrapped ht | named ht => cases ht
    | folded => exact isAccess_folded rfl
  | binary op l r =>
    cases h with
    | decided ht | right ht | left ht => cases ht
    | folded => exact isAccess_folded rfl
  | index subject property =>
    obtain rfl := h
    unfold index
    split
    · split <;> rfl
    · rfl
  | _ =>
    first
      | exact absurd hs Bool.noConfusion
      | (obtain rfl := h
         rfl)

end Rule

namespace Form

theorem isAccess_surfaceForm (form : Form Node) :
    (h.surfaceForm span form).isAccess = form.isAccess := by
  cases form <;> rfl

theorem Lift.isAccess {form form' : Form Node} {R : Category → Node → Node → Prop}
    {L : List Node → List Node → Prop} (h : form.Lift R L form') :
    form'.isAccess = form.isAccess := by
  cases h <;> rfl

theorem Lift.enclosureKind {form form' : Form Node} {R : Category → Node → Node → Prop}
    {L : List Node → List Node → Prop} (h : form.Lift R L form') :
    form'.enclosureKind = form.enclosureKind := by
  cases h with
  | @unary op => cases op <;> rfl
  | _ => rfl

end Form

/-- What is to be shown of a part of a conditional expression along the pass. -/
structure Node.Uncovers (o : Options) (k : Category) (a b : Node) : Prop where
  remains : b.Remains k
  condition : k = .condition → Hoist.ReducesTo o [⟨.conditional, .condition⟩] a b
  access : k = .expression → (b.form.isAccess = true ↔ a.Exposes o)

theorem Rule.Chosen.isAccess_iff {c a b c' a' b' : Node} (h : Chosen o c' a' b' span m)
    (hc : Node.Uncovers o .condition c c') (ha : Node.Uncovers o .expression a a')
    (hb : Node.Uncovers o .expression b b') :
    m.form.isAccess = true ↔ (⟨.conditional c a b, span⟩ : Node).Exposes o := by
  have hverdict : o.verdict? .conditional c = o.value? c' :=
    Options.verdict?_of_reducesTo (hc.condition rfl)
  have hopen (hnone : o.on .conditionals = true → o.value? c' = none) :
      ¬(⟨.conditional c a b, span⟩ : Node).Exposes o := by
    rw [Node.exposes_conditional_iff, hverdict]
    rintro ⟨hon, v, hv, -⟩
    rw [hnone hon] at hv
    cases hv
  cases h with
  | @known v hon hv =>
    have hselected : (if v.truthy then a' else b').form.isAccess = true ↔
        (if v.truthy then a else b).Exposes o := by
      split
      · exact ha.access rfl
      · exact hb.access rfl
    rw [Node.exposes_conditional_iff, hverdict, hv, hselected]
    simp [hon]
  | upright hnone => exact iff_of_false Bool.false_ne_true (hopen hnone)
  | reversed _ hnone _ => exact iff_of_false Bool.false_ne_true (hopen fun _ => hnone)

/-- The invariant of the pass: where the value of an expression is asked, it becomes a member if and
only if it exposes one. -/
theorem gives_access (hn : n.Fits true .expression) {s : Setting}
    (hs : Category.expression.Below s.parent?) (hc : s.Holds c₀) (ht : s.truth = false) :
    Gives (fun _ => False) s.Holds (n.reduce o) fun m =>
      (m.form.isAccess = true ↔ n.Exposes o) := by
  induction n using Node.reduceInduct o generalizing s c₀ with
  | declaration | definitions => cases hn.admits
  | unmarked form span hm ihParts =>
    have hparts : ∀ j a, (j, a) ∈ (o.hoist.surfaceForm span form).parts → a.Fits true j :=
      Hoist.fits_surfaceForm fun j a ha => hn.part ha
    by_cases hconditional : form.enclosureKind = .conditional
    · obtain ⟨c, a, b, rfl⟩ : ∃ c a b, form = .conditional c a b := by
        cases form with
        | conditional c a b => exact ⟨c, a, b, rfl⟩
        | unary op => cases op <;> cases hconditional
        | binary op => cases op <;> cases hconditional
        | _ => cases hconditional
      refine gives_reduce (R := Node.Uncovers o) hm (fun c hc => hc.1) (fun j x hx => ?_)
        fun form' h => ?_
      · have hbelow := Category.below_of_mem_parts hx
        rw [Hoist.enclosureKind_surfaceForm] at hbelow
        have hremains := gives_remains (o := o) (s := s.child .conditional j.role) (hparts j x hx)
          hbelow
        refine Gives.narrow ?_ fun _ => Setting.holds_child
        by_cases hj : j = .condition
        · subst hj
          have hcondition := Setting.holds_condition hx s
          refine (hremains.result _ hcondition).mono fun m hm => ?_
          exact ⟨hm.1, fun _ => hm.2, fun h => by cases h⟩
        · obtain rfl : j = .expression := by
            simp only [Hoist.surfaceForm, Form.parts, List.mem_cons, Prod.mk.injEq] at hx
            tauto
          have hchild : (s.child .conditional .other).Holds (⟨.conditional, .other⟩ :: c₀) :=
            Setting.holds_child ⟨c₀, hc, rfl⟩
          have haccess := ihParts .expression x hx (hparts _ _ hx) hbelow hchild rfl
          exact (hremains.and haccess hchild).mono fun m hm =>
            ⟨hm.1, fun h => absurd h hj, fun _ => hm.2⟩
      · have hremains := h.remains fun _ _ _ hab => hab.remains
        cases h with
        | conditional hc ha hb =>
          refine ⟨Rule.tests_of_remains hremains, fun m hm' => ?_⟩
          rw [ht] at hm'
          exact Rule.Chosen.isAccess_iff hm' hc ha hb
    · refine gives_reduce (R := fun j _ m => m.Remains j) hm (fun c hc => hc.1) (fun j a ha => ?_)
        fun form' h => ?_
      · have hbelow := Category.below_of_mem_parts ha
        rw [Hoist.enclosureKind_surfaceForm] at hbelow
        exact (gives_remains (hparts j a ha) hbelow).narrow fun _ => Setting.holds_child
      · refine ⟨Rule.tests_of_remains (h.remains fun _ _ _ hab => hab), fun m hm' => ?_⟩
        rw [ht] at hm'
        have hkind : form'.enclosureKind = form.enclosureKind :=
          h.enclosureKind.trans (Hoist.enclosureKind_surfaceForm form)
        have haccess : form'.isAccess = form.isAccess :=
          h.isAccess.trans (Form.isAccess_surfaceForm form)
        have hstatement' : form'.isStatement = false := by
          simpa [Category.admits] using (hn.lifted hm h).1
        rw [Rule.isAccess_simplified hstatement' (hkind ▸ hconditional) hm', haccess,
          Node.exposes_iff hconditional]

/-- A call has a callee and arguments of the class `T`. -/
def Form.Called (T : Node → List Node → Prop) (form : Form Node) : Prop :=
  ∀ e args, form = .call e args → T e args

/-- All calls of the tree have callees and arguments of the class `T`. -/
abbrev Node.Called (T : Node → List Node → Prop) : Node → Prop :=
  Node.Throughout (fun _ => true) (Form.Called T)

section Called

variable {T T' : Node → List Node → Prop}

/-- No rule makes a call. -/
theorem sustains_called : Form.Sustains o (fun _ => true) (Form.Called T) := by
  refine Form.sustains_of_rebuilt (fun form hf e args hform => ?_)
    fun _ _ _ _ _ _ hform => nomatch hform
  subst hform
  cases hf

theorem Hoist.called_mark {marks : Bool} (hn : n.Fits marks k) (hT : n.Called T) :
    (h.mark n).Called T := by
  induction n using Node.induct generalizing k with
  | h n ih =>
    obtain ⟨form, span⟩ := n
    obtain ⟨hself, hchildren⟩ := Node.throughout_iff.1 hT
    cases hs : form.isStatement with
    | false =>
      have hfits : (⟨form, span⟩ : Node).Fits marks .expression :=
        hn.move (by simp [Category.admits, hs])
      rw [mark_eq hfits.builtOf]
      exact hT
    | true =>
      rw [mark_mk]
      refine Node.throughout_iff.2 ⟨fun e args hcall => ?_, fun _ c hc => ?_⟩
      · have hcalls : (Form.call e args).isStatement = true := by
          rw [← hcall, Form.isStatement_withHoisted]
          split
          · rwa [Form.isStatement_map]
          · exact hs
        cases hcalls
      · rw [Form.children_withHoisted] at hc
        split at hc
        · rw [Form.children_map] at hc
          obtain ⟨a, ha, rfl⟩ := List.mem_map.1 hc
          obtain ⟨j, hj⟩ := hn.of_mem_children ha
          exact ih a ha hj (hchildren rfl a ha)
        · exact hchildren rfl c hc

/-- As the callee or an argument of a call, wherever the call stands, `a` is reduced to `b`. -/
def Node.PassesTo (o : Options) (a b : Node) : Prop :=
  ∀ c, Hoist.ReducesTo o (⟨.other, .other⟩ :: c) a b

/-- What is to be shown of a part of a form of kind `e` along the pass. -/
structure Node.Passed (o : Options) (T : Node → List Node → Prop) (e : EnclosureKind)
    (k : Category) (a b : Node) : Prop where
  remains : b.Remains k
  called : b.Called T
  passes : e = .other → k = .expression → a.PassesTo o b
  access : e = .other → k = .expression → (b.form.isAccess = true ↔ a.Exposes o)

/-- The calls of the class `T'` are those of the class `T` with callee and arguments reduced. -/
def CallsPass (o : Options) (T T' : Node → List Node → Prop) : Prop :=
  ∀ e args e' args', T e args → e.PassesTo o e' → List.Forall₂ (Node.PassesTo o) args args' →
    (e'.form.isAccess = true ↔ e.Exposes o) → T' e' args'

/-- The invariant of the pass: calls come from calls. -/
theorem gives_called (hT : CallsPass o T T') (hn : n.Fits true k) (hcalled : n.Called T)
    {s : Setting} (hs : k.Below s.parent?) (hc : s.Holds c₀) :
    Gives (fun _ => False) s.Holds (n.reduce o) fun m => m.Called T' := by
  induction n using Node.reduceInduct o generalizing k s c₀ with
  | unmarked form span hm ihParts =>
    obtain ⟨hself, hchildren⟩ := Node.throughout_iff.1 hcalled
    have hparts : ∀ j a, (j, a) ∈ (o.hoist.surfaceForm span form).parts → a.Fits true j :=
      Hoist.fits_surfaceForm fun j a ha => hn.part ha
    have hsurface : ∀ a ∈ (o.hoist.surfaceForm span form).children, a.Called T := by
      refine Hoist.throughout_surfaceForm (fun _ _ _ hcall => nomatch hcall) (fun _ _ => rfl)
        (hchildren rfl) fun a ha => ?_
      obtain ⟨j, hj⟩ := hn.of_mem_children ha
      exact Hoist.called_mark hj (hchildren rfl a ha)
    refine gives_reduce (R := Node.Passed o T' form.enclosureKind) hm (fun c hc => hc.1)
      (fun j a ha => ?_) fun form' h => ?_
    · have hbelow := Category.below_of_mem_parts ha
      rw [Hoist.enclosureKind_surfaceForm] at hbelow
      have hchild : (s.child form.enclosureKind j.role).Holds
          (⟨form.enclosureKind, j.role⟩ :: c₀) := Setting.holds_child ⟨c₀, hc, rfl⟩
      have hcall := ihParts j a ha (hparts j a ha) (hsurface a (Form.mem_children_of_parts ha))
        hbelow hchild
      have hremains := gives_remains (o := o) (s := s.child form.enclosureKind j.role)
        (hparts j a ha) hbelow
      refine Gives.narrow ?_ fun _ => Setting.holds_child
      by_cases hj : form.enclosureKind = .other ∧ j = .expression
      · obtain ⟨hother, rfl⟩ := hj
        rw [hother] at hbelow hchild hremains hcall ⊢
        have haccess := gives_access (o := o) (hparts _ a ha) hbelow hchild rfl
        refine ((hremains.and hcall hchild).and haccess hchild).results.mono fun m hm => ?_
        exact ⟨hm.1.1.1, hm.1.1.2, fun _ _ c => hm.2 _ ⟨rfl, rfl⟩, fun _ _ => hm.1.2⟩
      · exact (hremains.and hcall hchild).mono fun m hm =>
          ⟨hm.1, hm.2, fun he hk => absurd ⟨he, hk⟩ hj, fun he hk => absurd ⟨he, hk⟩ hj⟩
    · refine ⟨Rule.tests_of_remains (h.remains fun _ _ _ hab => hab.remains), fun m hm' => ?_⟩
      have hcalls := h.throughout sustains_called fun _ _ _ hab => hab.called
      refine Rule.throughout_of_simplified sustains_called (fun _ _ e' args' hcall => ?_)
        (fun _ => hcalls) hm'
      subst hcall
      cases form with
      | call e args =>
        cases h with
        | call he hargs =>
          exact hT e args e' args' (hself e args rfl) (he.passes rfl rfl)
            (hargs.imp fun _ _ hab => hab.passes rfl rfl) (he.access rfl rfl)
      | _ => cases h
  | declaration l span hl => exact sustains_called.gives_declaration hl
  | definitions kind bs span ihAssignments =>
    have hvalues : ∀ b ∈ bs, ∀ v ∈ b.value, v.Called T := by
      intro b hb v hv
      exact (Node.throughout_iff.1 hcalled).2 rfl v (List.mem_filterMap.2 ⟨b, hb, hv⟩)
    refine sustains_called.gives_definitions fun a ha => ?_
    have hassignments := (sustains_called (o := o)).assigned hvalues ha
    exact ihAssignments a ha (fits_assignments? hn ha) hassignments Setting.expression_below
      (Setting.holds_child ⟨c₀, hc, rfl⟩)

/-- A tree that has a place in some tree has one at the root of a run. -/
theorem Node.Fits.exists_below {marks : Bool} (hn : n.Fits marks k) :
    ∃ j, n.Fits marks j ∧ j.Below none := by
  have hplace {j : Category} (hj : j.admits n.form = true) (hb : j.Below none) :
      ∃ j, n.Fits marks j ∧ j.Below none := ⟨j, hn.move hj, hb⟩
  obtain ⟨form, span⟩ := n
  have hadmits := hn.admits
  cases k with
  | head =>
    cases form with
    | definitions => exact hplace (j := .statement) rfl fun e he => nomatch he
    | _ => exact hplace (j := .expression) hadmits fun e he => nomatch he
  | cursor =>
    cases form with
    | definitions => exact hplace (j := .statement) rfl fun e he => nomatch he
    | identifier | member | index => exact hplace (j := .expression) rfl fun e he => nomatch he
    | _ => cases hadmits
  | _ => exact ⟨_, hn, fun e he => nomatch he⟩

theorem gives_called_root (hT : CallsPass o T T') (hn : n.WellFormed ∨ ∃ k, n.Fits false k)
    (hcalled : n.Called T) :
    Gives (fun _ => False) Setting.initial.Holds (n.reduce o) fun m => m.Called T' := by
  obtain hn | ⟨k, hn⟩ := hn
  · obtain ⟨form, span⟩ := n
    obtain ⟨body, rfl, hbody⟩ := hn
    have hchildren := (Node.throughout_iff.1 hcalled).2 rfl
    have hsurface : ∀ a ∈ (o.hoist.surfaceForm span (.program body)).children, a.Called T :=
      Hoist.throughout_surfaceForm (fun _ _ _ hcall => nomatch hcall) (fun _ _ => rfl) hchildren
        fun a ha => Hoist.called_mark (hbody a ha) (hchildren a ha)
    refine gives_reduce (R := fun j _ m => m.Remains j ∧ m.Called T') rfl (fun c hc => hc.1)
      (fun j a ha => ?_) fun form' h => ?_
    · have hbelow := Category.below_of_mem_parts ha
      rw [Hoist.enclosureKind_surfaceForm] at hbelow
      have hfits : a.Fits true j := Hoist.fits_surfaceProgram hbody ha
      have hchild : (Setting.initial.child .other j.role).Holds [⟨.other, j.role⟩] :=
        Setting.holds_child ⟨[], Setting.holds_initial, rfl⟩
      have hcall := gives_called hT hfits (hsurface a (Form.mem_children_of_parts ha)) hbelow hchild
      exact ((gives_remains hfits hbelow).and hcall hchild).narrow fun _ => Setting.holds_child
    · refine ⟨Rule.tests_of_remains (h.remains fun _ _ _ hab => hab.1), fun m hm => ?_⟩
      have hcalls := h.throughout sustains_called fun _ _ _ hab => hab.2
      refine Rule.throughout_of_simplified sustains_called (fun _ _ e' args' hcall => ?_)
        (fun _ => hcalls) hm
      subst hcall
      cases h
  · obtain ⟨j, hj, hbelow⟩ := hn.exists_below
    exact gives_called hT hj.of_unmarked hcalled hbelow Setting.holds_initial

end Called

/-- Every call of the outcome is a call of the input whose callee and arguments were reduced. It
calls a member if and only if the callee was a member or conditions with constant values selected
one. -/
theorem minify_callee_isAccess (o : Options) (hn : n.WellFormed ∨ ∃ k, n.Fits false k) :
    ∃ m, (minify o n).result = .ok m ∧
      ∀ y ∈ m.visited fun _ => true, ∀ e' args', y.form = .call e' args' →
        ∃ x ∈ n.visited fun _ => true, ∃ e args, x.form = .call e args ∧ e.PassesTo o e' ∧
          List.Forall₂ (Node.PassesTo o) args args' ∧
          (e'.form.isAccess = true ↔ e.Exposes o) := by
  have hself : n.Called fun e args => ∃ x ∈ n.visited fun _ => true, x.form = .call e args :=
    fun x hx e args hcall => ⟨x, hx, hcall⟩
  have hT : CallsPass o (fun e args => ∃ x ∈ n.visited fun _ => true, x.form = .call e args)
      fun e' args' => ∃ x ∈ n.visited fun _ => true, ∃ e args, x.form = .call e args ∧
        e.PassesTo o e' ∧ List.Forall₂ (Node.PassesTo o) args args' ∧
        (e'.form.isAccess = true ↔ e.Exposes o) := by
    rintro e args e' args' ⟨x, hx, hcall⟩ he hargs haccess
    exact ⟨x, hx, e, args, hcall, he, hargs, haccess⟩
  obtain ⟨m, hm, hrun⟩ := (gives_called_root hT hn hself).ok
  obtain ⟨ws, hrun⟩ := hrun [] Setting.holds_initial []
  exact ⟨m, congrArg Prod.fst hrun, hm⟩

theorem wellFormed_selected {x y : Node} (hx : x.Fits false .expression)
    (hy : y.Fits false .expression) :
    (Build.program [Build.statement
      (Form.call (Build.conditional Build.null x y) []).node]).WellFormed := by
  have hcallee : (Build.conditional Build.null x y).Fits false .expression := by
    refine .mk rfl rfl fun j a ha => ?_
    simp only [Form.parts, List.mem_cons, Prod.mk.injEq, List.not_mem_nil, or_false] at ha
    obtain ⟨rfl, rfl⟩ | ⟨rfl, rfl⟩ | ⟨rfl, rfl⟩ := ha
    · exact .leaf rfl rfl rfl
    · exact hx
    · exact hy
  have hcall : (Form.call (Build.conditional Build.null x y) []).node.Fits false .expression := by
    refine .mk rfl rfl fun j a ha => ?_
    obtain ⟨rfl, rfl⟩ : j = .expression ∧ a = Build.conditional Build.null x y := by
      simpa [Form.parts] using ha
    exact hcallee
  refine ⟨_, rfl, fun a ha => ?_⟩
  obtain rfl := List.mem_singleton.1 ha
  exact hcall.statement

theorem fits_member {x : Node} {name : String} (hx : x.Fits false .expression) :
    (Build.member x name).Fits false .expression := by
  refine .mk rfl rfl fun j a ha => ?_
  obtain ⟨rfl, rfl⟩ : j = .expression ∧ a = x := by simpa [Form.parts] using ha
  exact hx

/-- `(null?a.b:c)();` becomes `c();`, which calls no member either. -/
theorem minify_selected_callee_isAccess :
    let e := Build.conditional Build.null (Build.member (Build.identifier "a") "b")
      (Build.identifier "c")
    let n := Build.program [Build.statement (Form.call e []).node]
    let m := Build.program [Build.callStatement "c" []]
    n.WellFormed ∧ (minify .full n).result = .ok m ∧
      ∀ y ∈ m.visited fun _ => true, ∀ e' args', y.form = .call e' args' →
        ∃ x ∈ n.visited fun _ => true, ∃ e args, x.form = .call e args ∧ e.PassesTo .full e' ∧
          List.Forall₂ (Node.PassesTo .full) args args' ∧
          (e'.form.isAccess = true ↔ e.Exposes .full) := by
  intro e n m
  have hn : n.WellFormed :=
    wellFormed_selected (fits_member (.leaf rfl rfl rfl)) (.leaf rfl rfl rfl)
  have hm : (minify .full n).result = .ok m := by cbv
  obtain ⟨m', hm', hcalls⟩ := minify_callee_isAccess .full (.inl hn)
  obtain rfl : m = m' := Except.ok.inj (hm.symm.trans hm')
  exact ⟨hn, hm, hcalls⟩

/-- `(null?c:a.b)();` becomes `a.b();`, which passes `a` on as `this`. -/
theorem minify_callee_gains_receiver :
    let e := Build.conditional Build.null (Build.identifier "c")
      (Build.member (Build.identifier "a") "b")
    let n := Build.program [Build.statement (Form.call e []).node]
    n.WellFormed ∧ e.form.isAccess = false ∧ ∃ e', e'.form.isAccess = true ∧
      (minify .full n).result = .ok (Build.program [Build.statement (Form.call e' []).node]) := by
  intro e n
  have hn : n.WellFormed :=
    wellFormed_selected (.leaf rfl rfl rfl) (fits_member (.leaf rfl rfl rfl))
  exact ⟨hn, rfl, Build.member (Build.identifier "a") "b", rfl, by cbv⟩

end ScriptMinifier
