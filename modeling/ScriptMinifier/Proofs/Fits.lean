import ScriptMinifier.Proofs.Reduce

namespace ScriptMinifier

namespace Form

variable {α β : Type}

/-- What can be assigned to. -/
def isReference : Form α → Bool
  | identifier _ | member .. | index .. => true
  | _ => false

/-- Parts of a statement or of a run, which stand in no statement list. -/
def isClause : Form α → Bool
  | case .. | catch_ .. | finally_ _ | program _ => true
  | _ => false

/-- No form is marked, or only declarations are where marks are let through. -/
def mayCarry (marks : Bool) (form : Form α) : Bool := !form.isHoisted || (marks && form.isMarked)

@[simp] theorem isStatement_withHoisted (h : Bool) (form : Form α) :
    (form.withHoisted h).isStatement = form.isStatement := by
  cases form <;> rfl

theorem Lift.isHoisted {R : Category → α → β → Prop} {L : List α → List β → Prop} {form : Form α}
    {form' : Form β} (h : form.Lift R L form') : form'.isHoisted = form.isHoisted := by
  cases h <;> rfl

@[simp] theorem parts_withHoisted (h : Bool) (form : Form α) :
    (form.withHoisted h).parts = form.parts := by
  cases form <;> rfl

end Form

/-- Whether a form may stand in a place. -/
def Category.admits {α : Type} : Category → Form α → Bool
  | expression, form | condition, form => !form.isStatement
  | target, form => form.isReference
  | head, .definitions .. => true
  | head, form => !form.isStatement
  | cursor, .definitions _ [b] _ => b.value.isNone
  | cursor, form => form.isReference
  | statement, form => form.isStatement && !form.isClause
  | clause, .case .. => true
  | handler, .catch_ .. => true
  | finalizer, .finally_ _ => true
  | clause, _ | handler, _ | finalizer, _ => false

namespace Category

variable {α β : Type}

@[simp] theorem admits_map (k : Category) (f : α → β) (form : Form α) :
    k.admits (form.map f) = k.admits form := by
  cases form with
  | definitions kind bs h =>
    obtain _ | ⟨b, _ | ⟨_, _⟩⟩ := bs
    · cases k <;> rfl
    · cases k <;> simp [admits, Form.map, Form.isStatement, Form.isReference, Form.isClause,
        Binding.map]
    · cases k <;> rfl
  | _ => cases k <;> rfl

@[simp] theorem admits_withHoisted (k : Category) (h : Bool) (form : Form α) :
    k.admits (form.withHoisted h) = k.admits form := by
  cases form with
  | definitions kind bs h =>
    obtain _ | ⟨b, _ | ⟨_, _⟩⟩ := bs <;> cases k <;> rfl
  | _ => cases k <;> rfl

/-- The places of an expression that cannot be assigned to take expressions of all forms. -/
theorem takesExpressions {k : Category} {form : Form α} (hk : k.admits form = true)
    (hs : form.isStatement = false) (hr : form.isReference = false) :
    k = .expression ∨ k = .condition ∨ k = .head := by
  cases k with
  | expression => exact .inl rfl
  | condition => exact .inr (.inl rfl)
  | head => exact .inr (.inr rfl)
  | _ => cases form <;> simp_all [admits, Form.isStatement, Form.isReference]

/-- Parts that correspond leave a form where it stands. -/
theorem admits_lift {R : Category → α → β → Prop} {L : List α → List β → Prop} {form : Form α}
    {form' : Form β} (h : form.Lift R L form') (k : Category) :
    k.admits form' = k.admits form := by
  cases h with
  | definitions h =>
    cases h with
    | nil => cases k <;> rfl
    | cons h h' =>
      cases h' with
      | cons => cases k <;> rfl
      | nil =>
        obtain ⟨value, hv⟩ := h
        generalize hb : Binding.value _ = v at hv
        cases hv <;> cases k <;> simp [admits, Form.isStatement, Form.isReference,
          Form.isClause, hb]
  | _ => cases k <;> rfl

end Category

/-- The tree may stand in a place, and so may each of its parts. Hoisting marks stand on
declarations alone, and on none unless `marks`. -/
inductive Node.Fits (marks : Bool) : Category → Node → Prop
  | mk {k : Category} {form : Form Node} {span : Span} : k.admits form = true →
    form.mayCarry marks = true → (∀ j a, (j, a) ∈ form.parts → Fits marks j a) →
    Fits marks k ⟨form, span⟩

/-- What a form holds in a scope of its own fits there. -/
def Form.ScopeFits (form : Form Node) : Prop :=
  form.opensScope = true → ∀ k a, (k, a) ∈ form.parts → a.Fits true k

namespace Node.Fits

variable {marks : Bool} {k j : Category} {n : Node} {form : Form Node} {span : Span}

theorem admits (h : (⟨form, span⟩ : Node).Fits marks k) : k.admits form = true := by
  cases h with
  | mk hk _ _ => exact hk

theorem mayCarry (h : (⟨form, span⟩ : Node).Fits marks k) : form.mayCarry marks = true := by
  cases h with
  | mk _ hm _ => exact hm

theorem isMarked (h : n.Fits false k) : n.form.isMarked = false := by
  obtain ⟨form, span⟩ := n
  have hcarry := h.mayCarry
  cases form <;> simp_all [Form.mayCarry, Form.isHoisted, Form.isMarked]

theorem part (h : (⟨form, span⟩ : Node).Fits marks k) {a : Node} (ha : (j, a) ∈ form.parts) :
    a.Fits marks j := by
  cases h with
  | mk _ _ hp => exact hp j a ha

theorem of_mem_children (h : n.Fits marks k) {c : Node} (hc : c ∈ n.children) :
    ∃ j, c.Fits marks j := by
  obtain ⟨form, span⟩ := n
  obtain ⟨j, hj⟩ := Form.exists_part hc
  exact ⟨j, h.part hj⟩

/-- A tree that fits some place fits every place that admits its form. -/
theorem move (h : n.Fits marks k) (hj : j.admits n.form = true) : n.Fits marks j := by
  cases h with
  | mk _ hm hp => exact .mk hj hm hp

theorem of_unmarked (h : n.Fits false k) : n.Fits marks k := by
  induction h with
  | mk hk hm _ ih =>
    refine .mk hk ?_ ih
    simp_all [Form.mayCarry]

theorem of_mem_visited (h : n.Fits marks k) {descend : Node → Bool} {m : Node}
    (hm : m ∈ n.visited descend) : ∃ j, m.Fits marks j := by
  induction n using Node.induct generalizing k with
  | h n ih =>
    rw [Node.visited_eq] at hm
    rcases List.mem_cons.1 hm with rfl | hm
    · exact ⟨k, h⟩
    · split at hm
      · obtain ⟨c, hc, hmc⟩ := List.mem_flatMap.1 hm
        obtain ⟨j, hj⟩ := h.of_mem_children hc
        exact ih c hc hj hmc
      · simp at hm

theorem declaration {l : Lambda Node} (h : (⟨.declaration l, span⟩ : Node).Fits marks k) :
    (⟨.declaration l, span⟩ : Node).Fits marks .statement :=
  h.move rfl

/-- Without its initializers a declaration is one without parts. -/
theorem bare {kind : DeclarationKind} {bs : List (Binding Node)} {hoisted : Bool}
    (hm : (Form.definitions kind bs hoisted).mayCarry marks = true) :
    (⟨.definitions kind (bs.map Binding.bare) hoisted, span⟩ : Node).Fits marks .statement := by
  refine .mk rfl hm fun j a ha => ?_
  simp [Form.parts, List.filterMap_map, Function.comp_def] at ha

theorem sequence {a b : Node} (ha : a.Fits marks .expression) (hb : b.Fits marks .expression) :
    (⟨.sequence a b, span⟩ : Node).Fits marks .expression := by
  refine .mk rfl rfl fun j c hc => ?_
  simp only [Form.parts, List.mem_cons, Prod.mk.injEq, List.not_mem_nil, or_false] at hc
  obtain ⟨rfl, rfl⟩ | ⟨rfl, rfl⟩ := hc
  · exact ha
  · exact hb

theorem statement {a : Node} (ha : a.Fits marks .expression) :
    (⟨.expression a, span⟩ : Node).Fits marks .statement := by
  refine .mk rfl rfl fun j c hc => ?_
  obtain ⟨rfl, rfl⟩ : j = .expression ∧ c = a := by simpa [Form.parts] using hc
  exact ha

theorem exit {kind : ExitKind} {a : Node} (ha : a.Fits marks .expression) :
    (⟨.exit kind (some a), span⟩ : Node).Fits marks .statement := by
  refine .mk rfl rfl fun j c hc => ?_
  obtain ⟨rfl, rfl⟩ : j = .expression ∧ c = a := by simpa [Form.parts] using hc
  exact ha

theorem leaf (hk : k.admits form = true) (hm : form.mayCarry marks = true)
    (hp : form.parts = []) : (⟨form, span⟩ : Node).Fits marks k :=
  .mk hk hm fun j a ha => by simp [hp] at ha

/-- What can be assigned to is an expression. -/
theorem target (h : n.Fits marks .target) : n.Fits marks .expression := by
  refine h.move ?_
  obtain ⟨form, span⟩ := n
  have hk := h.admits
  cases form <;> first | rfl | exact hk

theorem operand {op : UnaryOperator} {a : Node} (h : a.Fits marks op.operandCategory) :
    a.Fits marks .expression := by
  cases op with
  | increment | decrement => exact h.target
  | _ => exact h

theorem condition (h : n.Fits marks .condition) : n.Fits marks .expression := by
  obtain ⟨form, span⟩ := n
  exact h.move h.admits

/-- What stands for an expression is built of expressions. -/
theorem builtOf (h : n.Fits marks .expression) : n.BuiltOf fun _ => True := by
  induction n using Node.induct with
  | h n ih =>
    obtain ⟨form, span⟩ := n
    have hform : form.isStatement = false := by simpa [Category.admits] using h.admits
    refine .mk hform trivial fun hscope c hc => ih c hc ?_
    obtain ⟨j, hj⟩ := Form.exists_part hc
    have hjc := h.part hj
    obtain rfl | rfl | rfl := Form.expression_of_mem_parts hform hscope hj
    · exact hjc
    · exact hjc.condition
    · exact hjc.target

/-- What stands for an expression can be evaluated and negated. -/
theorem evaluable (h : n.Fits marks .expression) {F : Fault → Prop} : Rule.Evaluable F n :=
  Rule.evaluable_of_builtOf h.builtOf

end Node.Fits

namespace Hoist

variable {h : Hoist} {k : Category} {n c : Node} {body : List Node} {span : Span}

/-- Marks are set on declarations alone. -/
theorem mayCarry_mark {form : Form Node} (hm : form.mayCarry true = true) :
    (form.withHoisted (form.isHoisted || h.hoists ⟨form, span⟩)).mayCarry true = true := by
  cases form with
  | definitions kind bs hoisted =>
    generalize hoists h _ = b
    cases hoisted <;> cases b <;> rfl
  | declaration l =>
    generalize hoists h _ = b
    cases hl : l.hoisted <;> cases b <;>
      simp [Form.mayCarry, Form.withHoisted, Form.isHoisted, Form.isMarked, hl]
  | function l => simpa [Form.mayCarry, Form.withHoisted, Form.isHoisted, hoists] using hm
  | _ => rfl

theorem fits_mark (hn : n.Fits true k) : (h.mark n).Fits true k := by
  induction n using Node.induct generalizing k with
  | h n ih =>
    obtain ⟨form, span⟩ := n
    rw [mark_mk]
    have hm : (form.withHoisted (form.isHoisted || h.hoists ⟨form, span⟩)).mayCarry true = true :=
      mayCarry_mark hn.mayCarry
    split
    · refine .mk ?_ ?_ fun j a ha => ?_
      · simpa using hn.admits
      · cases form <;> exact hm
      · simp only [Form.parts_withHoisted, Form.parts_map, List.mem_map, Prod.mk.injEq] at ha
        obtain ⟨⟨j', a'⟩, ha, rfl, rfl⟩ := ha
        exact ih a' (Form.mem_children_of_parts ha) (hn.part ha)
    · refine .mk ?_ hm fun j a ha => ?_
      · simpa using hn.admits
      · exact hn.part (by simpa using ha)

/-- Whatever a scope holds after hoisting is a statement if all it held before was. -/
theorem fits_surface {params : Option (List String)} (hb : ∀ n ∈ body, n.Fits true .statement)
    (hc : c ∈ (h.surface params span body).1) : c.Fits true .statement := by
  refine forall_mem_surface params (.bare rfl) (fun l s hl => ?_) (fun n hn => fits_mark (hb n hn))
    c hc
  obtain ⟨n, hn, hl⟩ := List.mem_flatMap.1 hl
  obtain ⟨j, hj⟩ := (hb n hn).of_mem_visited hl
  exact hj.declaration

theorem fits_surfaceForm {form : Form Node} (hp : ∀ j a, (j, a) ∈ form.parts → a.Fits true j) :
    ∀ j a, (j, a) ∈ (h.surfaceForm span form).parts → a.Fits true j := by
  have hl (l : Lambda Node) (hl : ∀ n ∈ l.body, n.Fits true .statement) :
      ∀ n ∈ (h.surfaceLambda span l).body, n.Fits true .statement :=
    fun n hn => fits_surface hl hn
  intro j a ha
  cases form with
  | program body =>
    simp only [surfaceForm, Form.parts, List.mem_map, Prod.mk.injEq] at ha
    obtain ⟨a, ha, rfl, rfl⟩ := ha
    exact fits_surface (fun n hn => hp _ _ (by simpa [Form.parts] using hn)) ha
  | declaration l | function l =>
    simp only [surfaceForm, Form.parts, List.mem_map, Prod.mk.injEq] at ha
    obtain ⟨a, ha, rfl, rfl⟩ := ha
    exact hl l (fun n hn => hp _ _ (by simpa [Form.parts] using hn)) a ha
  | _ => exact hp j a ha

/-- What a program holds once its declarations are hoisted has its place there. -/
theorem fits_surfaceProgram {body : List Node} (hbody : ∀ n ∈ body, n.Fits false .statement)
    {a : Node} (ha : (k, a) ∈ (h.surfaceForm span (.program body)).parts) : a.Fits true k := by
  refine fits_surfaceForm (fun j b hb => ?_) k a ha
  obtain ⟨_, hb', hj⟩ := List.mem_map.1 hb
  cases hj
  exact (hbody b hb').of_unmarked

theorem admits_surfaceForm (form : Form Node) :
    k.admits (h.surfaceForm span form) = k.admits form := by
  cases form <;> cases k <;> rfl

theorem enclosureKind_surfaceForm (form : Form Node) :
    (h.surfaceForm span form).enclosureKind = form.enclosureKind := by
  cases form <;> rfl

theorem isHoisted_surfaceForm (form : Form Node) :
    (h.surfaceForm span form).isHoisted = form.isHoisted := by
  cases form <;> rfl

end Hoist

/-- What hoisting and reducing the parts make of an unmarked form is admitted where the form was,
and carries no mark. -/
theorem Node.Fits.lifted {o : Options} {k : Category} {form form' : Form Node} {span : Span}
    {R : Category → Node → Node → Prop} {L : List Node → List Node → Prop}
    (hn : (⟨form, span⟩ : Node).Fits true k) (hm : form.isMarked = false)
    (h : (o.hoist.surfaceForm span form).Lift R L form') :
    k.admits form' = true ∧ form'.isHoisted = false := by
  have hcarry := hn.mayCarry
  rw [Category.admits_lift h, Hoist.admits_surfaceForm, h.isHoisted, Hoist.isHoisted_surfaceForm]
  exact ⟨hn.admits, by simpa [Form.mayCarry, hm] using hcarry⟩

/-- The assignments that stand for a declaration are an expression. -/
theorem fits_assignments? {marks : Bool} {k : Category} {kind : DeclarationKind}
    {bs : List (Binding Node)} {hoisted : Bool} {span : Span} {a : Node}
    (hn : (⟨.definitions kind bs hoisted, span⟩ : Node).Fits marks k)
    (ha : a ∈ assignments? bs) : a.Fits marks .expression := by
  refine of_mem_assignments? (fun b hb v hv => .mk rfl rfl fun j a ha => ?_)
    (fun ha hb => ha.sequence hb) ha
  simp only [Form.parts, List.mem_cons, Prod.mk.injEq, List.not_mem_nil, or_false] at ha
  obtain ⟨rfl, rfl⟩ | ⟨rfl, rfl⟩ := ha
  · exact .leaf rfl rfl rfl
  · exact hn.part (List.mem_map_of_mem (List.mem_filterMap.2 ⟨b, hb, hv⟩))

namespace Statements

variable {marks : Bool} {n : Node}

theorem fits_survivors {k : Category} (h : n.Fits marks k) :
    ∀ d ∈ survivors n, d.Fits marks .statement := by
  apply forall_survivors
  · intro kind bs hoisted s hm
    obtain ⟨j, hj⟩ := h.of_mem_visited hm
    exact .bare hj.mayCarry
  · intro l s hm
    obtain ⟨j, hj⟩ := h.of_mem_visited hm
    exact hj.declaration

/-- Tidying a list leaves a list of statements. -/
theorem stable_fits : Stable (Node.Fits marks .statement) where
  block h n hn := h.part (by simpa [Form.parts] using hn)
  survivors := fits_survivors
  sequence {a b _ _} ha hb := by
    have ha' : a.Fits marks .expression := ha.part (by simp [Form.parts])
    have hb' : b.Fits marks .expression := hb.part (by simp [Form.parts])
    exact (ha'.sequence hb').statement
  exit {_ a v _ _} ha hv := by
    have ha' : a.Fits marks .expression := ha.part (by simp [Form.parts])
    have hv' : v.Fits marks .expression := hv.part (by simp [Form.parts])
    exact (ha'.sequence hv').exit

end Statements

end ScriptMinifier
