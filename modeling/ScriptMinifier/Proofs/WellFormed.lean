import ScriptMinifier.Proofs.Fits
import ScriptMinifier.Tree.Build

namespace ScriptMinifier

open Pass (Gives)

/-- A program that holds statements, all of them fitting and none marked. -/
def Node.WellFormed (n : Node) : Prop :=
  ∃ body, n.form = .program body ∧ ∀ a ∈ body, a.Fits false .statement

variable {o : Options} {marks truth : Bool} {span : Span} {k : Category} {n m : Node}

namespace Node.Fits

/-- An expression fits every place that takes expressions of all forms. -/
theorem place (h : n.Fits marks .expression)
    (hk : k = .expression ∨ k = .condition ∨ k = .head) : n.Fits marks k := by
  refine h.move ?_
  obtain ⟨form, s⟩ := n
  have hform := h.admits
  obtain rfl | rfl | rfl := hk
  · exact hform
  · exact hform
  · cases form <;> first | rfl | exact hform

theorem unary {op : UnaryOperator} {a : Node} (ha : a.Fits marks op.operandCategory) :
    (⟨.unary op a, span⟩ : Node).Fits marks .expression := by
  refine .mk rfl rfl fun j c hc => ?_
  obtain ⟨rfl, rfl⟩ : j = op.operandCategory ∧ c = a := by simpa [Form.parts] using hc
  exact ha

theorem binary {op : BinaryOperator} {a b : Node} (ha : a.Fits marks .expression)
    (hb : b.Fits marks .expression) : (⟨.binary op a b, span⟩ : Node).Fits marks .expression := by
  refine .mk rfl rfl fun j c hc => ?_
  simp only [Form.parts, List.mem_cons, Prod.mk.injEq, List.not_mem_nil, or_false] at hc
  obtain ⟨rfl, rfl⟩ | ⟨rfl, rfl⟩ := hc
  · exact ha
  · exact hb

theorem conditional {c a b : Node} (hc : c.Fits marks .expression) (ha : a.Fits marks .expression)
    (hb : b.Fits marks .expression) :
    (⟨.conditional c a b, span⟩ : Node).Fits marks .expression := by
  refine .mk rfl rfl fun j d hd => ?_
  simp only [Form.parts, List.mem_cons, Prod.mk.injEq, List.not_mem_nil, or_false] at hd
  obtain ⟨rfl, rfl⟩ | ⟨rfl, rfl⟩ | ⟨rfl, rfl⟩ := hd
  · exact hc.place (.inr (.inl rfl))
  · exact ha
  · exact hb

theorem empty : (Node.empty span).Fits marks .statement := .leaf rfl rfl rfl

theorem branch {c body : Node} {alternative : Option Node} (hc : c.Fits marks .expression)
    (hb : body.Fits marks .statement) (ha : ∀ a ∈ alternative, a.Fits marks .statement) :
    (⟨.branch c body alternative, span⟩ : Node).Fits marks .statement := by
  refine .mk rfl rfl fun j d hd => ?_
  simp only [Form.parts, List.mem_cons, Prod.mk.injEq, List.mem_map, Option.mem_toList] at hd
  obtain ⟨rfl, rfl⟩ | ⟨rfl, rfl⟩ | ⟨a, ha', rfl, rfl⟩ := hd
  · exact hc.place (.inr (.inl rfl))
  · exact hb
  · exact ha _ ha'

end Node.Fits

namespace Rule

theorem closed_fits (marks : Bool) : Closed (Node.Fits marks .expression) where
  literal v span := by cases v <;> exact .leaf rfl rfl rfl
  not := ⟨fun h => h.part (by simp [Form.parts, UnaryOperator.operandCategory]), fun h => .unary h⟩
  sequence := ⟨fun h => ⟨h.part (by simp [Form.parts]), h.part (by simp [Form.parts])⟩,
    fun h => h.1.sequence h.2⟩
  conditional {c a b span} := by
    refine ⟨fun h => ?_, fun h => h.1.conditional h.2.1 h.2.2⟩
    have hc : c.Fits marks .condition := h.part (by simp [Form.parts])
    exact ⟨hc.condition, h.part (by simp [Form.parts]), h.part (by simp [Form.parts])⟩
  operands h := ⟨h.part (by simp [Form.parts]), h.part (by simp [Form.parts])⟩
  logical _ hl hr := hl.binary hr
  replace _ _ hl hr := hl.binary hr

theorem fits_index {subject property : Node} (hs : subject.Fits marks .expression)
    (hp : property.Fits marks .expression) : (index o subject property span).Fits marks .target := by
  have hindex : (⟨.index subject property, span⟩ : Node).Fits marks .target := by
    refine .mk rfl rfl fun j c hc => ?_
    simp only [Form.parts, List.mem_cons, Prod.mk.injEq, List.not_mem_nil, or_false] at hc
    obtain ⟨rfl, rfl⟩ | ⟨rfl, rfl⟩ := hc
    · exact hs
    · exact hp
  unfold index
  split
  · split
    · refine .mk rfl rfl fun j c hc => ?_
      obtain ⟨rfl, rfl⟩ : j = .expression ∧ c = subject := by simpa [Form.parts] using hc
      exact hs
    · exact hindex
  · exact hindex

theorem Looped.fits {kind : LoopKind} {c body : Node} (h : Looped o kind c body span m)
    (hc : c.Fits marks .condition) (hb : body.Fits marks .statement) :
    m.Fits marks .statement := by
  cases h with
  | forever =>
    refine .mk rfl rfl fun j d hd => ?_
    obtain ⟨rfl, rfl⟩ : j = .statement ∧ d = body := by simpa [Form.parts] using hd
    exact hb
  | never => exact .empty
  | same =>
    refine .mk rfl rfl fun j d hd => ?_
    simp only [Form.parts, List.mem_cons, Prod.mk.injEq, List.not_mem_nil, or_false] at hd
    obtain ⟨rfl, rfl⟩ | ⟨rfl, rfl⟩ := hd
    · exact hc
    · exact hb

theorem carries_fits (o : Options) (marks : Bool) :
    Carries o (Node.Fits marks .expression) (Node.Fits marks .statement) where
  toKeeps := (closed_fits marks).keeps o
  logical := (closed_fits marks).logical
  expression := ⟨fun h => h.part (by simp [Form.parts]), Node.Fits.statement⟩
  exit hx hy hz :=
    (hz (hx.part (by simp [Form.parts])) (hy.part (by simp [Form.parts]))).exit
  empty := .empty
  branch _ := .branch

end Rule

/-- What a part becomes: a tree that fits its place, or nothing where a `for` was to start. -/
def Node.Remains (k : Category) (m : Node) : Prop :=
  m.Fits false k ∨ (k = .head ∧ m.isEmpty = true)

theorem Node.Remains.fits (h : m.Remains k) (hk : k ≠ .head) : m.Fits false k :=
  h.resolve_right fun h => hk h.1

/-- The rule for a form may evaluate and negate the parts that stand for expressions. -/
theorem Rule.tests_of_remains {form : Form Node}
    (hp : ∀ j a, (j, a) ∈ form.parts → a.Remains j) {F : Fault → Prop} :
    Rule.Tests (Rule.Evaluable F) form := by
  have hvalue {x : Node} {s : Span} (h : (⟨.expression x, s⟩ : Node).Remains .statement) :
      x.Fits false .expression := (h.fits (by decide)).part (by simp [Form.parts])
  cases form with
  | branch c body alternative =>
    have hc : c.Fits false .condition :=
      (hp .condition c (by simp [Form.parts])).fits (by decide)
    refine ⟨hc.condition.evaluable, fun x s hx => ?_, fun x s hx => ?_, fun x s hx => ?_⟩
    · subst hx
      have hx : x.Fits false UnaryOperator.not.operandCategory := hc.part (by simp [Form.parts])
      exact hx.operand.evaluable
    · subst hx
      have hbody : (⟨.expression x, s⟩ : Node).Remains .statement := hp _ _ (by simp [Form.parts])
      exact (hvalue hbody).evaluable
    · subst hx
      have halt : (⟨.expression x, s⟩ : Node).Remains .statement := hp _ _ (by simp [Form.parts])
      exact (hvalue halt).evaluable
  | loop kind c body =>
    exact ((hp .condition c (by simp [Form.parts])).fits (by decide)).condition.evaluable
  | conditional c a b =>
    exact ((hp .condition c (by simp [Form.parts])).fits (by decide)).condition.evaluable
  | unary op x =>
    have hx := hp op.operandCategory x (by simp [Form.parts])
    exact (hx.fits (by cases op <;> decide)).operand.evaluable
  | binary op l r =>
    exact ⟨((hp .expression l (by simp [Form.parts])).fits (by decide)).evaluable,
      ((hp .expression r (by simp [Form.parts])).fits (by decide)).evaluable⟩
  | _ => exact trivial

/-- The rule for an unmarked form keeps it where it stands. -/
theorem Rule.fits_simplified {form : Form Node} (hk : k.admits form = true)
    (hm : form.isHoisted = false) (hp : ∀ j a, (j, a) ∈ form.parts → a.Remains j)
    (h : Rule.Simplified o truth span form m) : m.Fits false k := by
  have hpart {j : Category} {a : Node} (ha : (j, a) ∈ form.parts) (hj : j ≠ .head) :
      a.Fits false j := (hp j a ha).fits hj
  have hcarry : form.mayCarry false = true := by simp [Form.mayCarry, hm]
  have hsame (hhead : ∀ a, (.head, a) ∉ form.parts) : (⟨form, span⟩ : Node).Fits false k := by
    refine .mk hk hcarry fun j a ha => hpart ha ?_
    rintro rfl
    exact hhead a ha
  cases form with
  | debugger =>
    obtain rfl : k = .statement := by cases k <;> first | rfl | cases hk
    subst h
    split
    · exact .empty
    · exact .leaf rfl rfl rfl
  | labeled label body =>
    obtain rfl : k = .statement := by cases k <;> first | rfl | cases hk
    obtain rfl := h
    split
    · exact hpart (by simp [Form.parts]) (by decide)
    · exact hsame (by simp [Form.parts])
  | block body =>
    obtain rfl : k = .statement := by cases k <;> first | rfl | cases hk
    obtain ⟨a, rfl, rfl⟩ | rfl := simplified_block h
    · exact hpart (by simp [Form.parts]) (by decide)
    · exact hsame (by simp [Form.parts])
  | branch c body alternative =>
    obtain rfl : k = .statement := by cases k <;> first | rfl | cases hk
    have hc : c.Fits false .condition := hpart (by simp [Form.parts]) (by decide)
    exact (carries_fits o false).branched h hc.condition
      (hpart (by simp [Form.parts]) (by decide)) fun a ha =>
        hpart (by simp_all [Form.parts]) (by decide)
  | loop kind c body =>
    obtain rfl : k = .statement := by cases k <;> first | rfl | cases hk
    exact Looped.fits h (hpart (by simp [Form.parts]) (by decide))
      (hpart (by simp [Form.parts]) (by decide))
  | forLoop init c step body =>
    obtain rfl : k = .statement := by cases k <;> first | rfl | cases hk
    obtain rfl := h
    refine .mk rfl rfl fun j a ha => ?_
    simp only [Form.parts, List.mem_append, List.mem_map, Option.mem_toList, Prod.mk.injEq,
      List.mem_singleton, Option.filter_eq_some_iff] at ha
    obtain ((⟨a, ⟨ha, he⟩, rfl, rfl⟩ | ⟨a, ha, rfl, rfl⟩) | ⟨a, ha, rfl, rfl⟩) | ⟨rfl, rfl⟩ := ha
    · exact (hp .head a (by simp [Form.parts, ha])).resolve_right fun h => by simp [h.2] at he
    · exact hpart (by simp [Form.parts, ha]) (by decide)
    · exact hpart (by simp [Form.parts, ha]) (by decide)
    · exact hpart (by simp [Form.parts]) (by decide)
  | boolean b =>
    obtain rfl := h
    exact ((closed_fits false).truthLiteral b).place (Category.takesExpressions hk rfl rfl)
  | unary op x =>
    have hn := hsame (by simp [Form.parts])
    exact ((closed_fits false).prefixed h (hn.move rfl)).place
      (Category.takesExpressions hk rfl rfl)
  | binary op l r =>
    have hn := hsame (by simp [Form.parts])
    exact ((closed_fits false).combined h (hn.move rfl)).place
      (Category.takesExpressions hk rfl rfl)
  | conditional c a b =>
    have hn := hsame (by simp [Form.parts])
    exact ((closed_fits false).chosen h (hn.move rfl)).place
      (Category.takesExpressions hk rfl rfl)
  | index subject property =>
    obtain rfl := h
    have ht : (index o subject property span).Fits false .target :=
      fits_index (hpart (by simp [Form.parts]) (by decide))
        (hpart (by simp [Form.parts]) (by decide))
    refine ht.move ?_
    rw [← hk]
    unfold index
    split
    · split <;> cases k <;> rfl
    · cases k <;> rfl
  | _ =>
    obtain rfl := h
    exact hsame (by simp [Form.parts])

/-- What encloses a place: the starts of loops stand below a loop, and no other place is taken for
one. -/
def Category.Below (k : Category) (parent? : Option Enclosure) : Prop :=
  match k with
  | head => parent? = some ⟨.forLoop, .init⟩
  | cursor => parent? = some ⟨.forIn, .init⟩
  | _ => ∀ e, parent? ≠ some ⟨e, .init⟩

theorem Category.below_of_mem_parts {form : Form Node} {a : Node} (h : (k, a) ∈ form.parts) :
    k.Below (some ⟨form.enclosureKind, k.role⟩) := by
  cases k with
  | head =>
    cases form with
    | forLoop => rfl
    | _ => simp [Form.parts] at h
  | cursor =>
    cases form with
    | forIn => rfl
    | unary op | update op => cases op <;> simp [Form.parts, UnaryOperator.operandCategory] at h
    | _ => simp [Form.parts] at h
  | _ =>
    intro e he
    cases he

/-- The assignments that stand for a marked `var` start no loop. -/
theorem Setting.expression_below {s : Setting} {e : EnclosureKind} :
    Category.expression.Below (s.child e .other).parent? := by
  intro e' he
  cases he

/-- A marked `var` becomes its assignments as they fit where it stands. -/
theorem Rule.remains_placeAssignments {kind : DeclarationKind} {bs : List (Binding Node)}
    {hoisted : Bool} {parent? : Option Enclosure} {a? : Option Node}
    (hk : k.admits (Form.definitions kind bs hoisted) = true) (hs : k.Below parent?)
    (ha : Option.Rel (fun _ m => m.Fits false .expression) (assignments? bs) a?) :
    (placeAssignments parent? bs a? span).Remains k := by
  have hsome (a : Node) (ha' : a ∈ a?) : a.Fits false .expression := by
    obtain ⟨_, -, hfits⟩ := exists_of_rel ha ha'
    exact hfits
  cases k with
  | statement =>
    left
    unfold placeAssignments
    split
    · exact absurd rfl (hs _)
    · exact absurd rfl (hs _)
    · exact absurd rfl (hs _)
    · exact (hsome _ rfl).statement
    · exact .empty
  | head =>
    obtain rfl := hs
    cases a? with
    | none => exact .inr ⟨rfl, rfl⟩
    | some a => exact .inl ((hsome a rfl).place (.inr (.inr rfl)))
  | cursor =>
    obtain rfl := hs
    match bs, hk with
    | [b], hk =>
      have hv : b.value = none := by simpa [Category.admits] using hk
      have hnone : assignments? [b] = none := by simp [assignments?, Binding.assignment?, hv]
      rw [hnone] at ha
      cases ha with
      | none => exact .inl (.leaf rfl rfl rfl)
  | _ => simp [Category.admits, Form.isStatement, Form.isReference] at hk

/-- Reducing the parts of a form leaves a form with parts that fit. -/
theorem Form.Lift.remains {form form' : Form Node} {R : Category → Node → Node → Prop}
    (hR : ∀ k n m, R k n m → m.Remains k)
    (h : form.Lift R (Statements.Tidied o (R .statement)) form') :
    ∀ j a, (j, a) ∈ form'.parts → a.Remains j := by
  refine h.forall_parts hR fun ns ns' hns a ha => ?_
  exact .inl (Statements.stable_fits.of_tidied hns
    (fun n m hm => (hR .statement n m hm).fits (by decide)) a ha)

/-- The invariant of the pass: a tree that fits its place, declarations marked or not, is reduced
without a fault to a tree without marks that fits there too. -/
theorem gives_remains {s : Setting} (hn : n.Fits true k) (hs : k.Below s.parent?) :
    Gives (fun _ => False) s.Holds (n.reduce o) (Node.Remains k) := by
  induction n using Node.reduceInduct o generalizing k s with
  | unmarked form span hm ihParts =>
    have hparts : ∀ j a, (j, a) ∈ (o.hoist.surfaceForm span form).parts → a.Fits true j :=
      Hoist.fits_surfaceForm fun j a ha => hn.part ha
    refine gives_reduce (R := fun j _ m => m.Remains j) hm (fun c hc => hc.1) (fun j a ha => ?_) ?_
    · have hbelow := Category.below_of_mem_parts ha
      rw [Hoist.enclosureKind_surfaceForm] at hbelow
      exact (ihParts j a ha (hparts j a ha) hbelow).narrow fun _ => Setting.holds_child
    · intro form' hform'
      have hremains := hform'.remains fun _ _ _ hm => hm
      obtain ⟨hadmits, hhoisted⟩ := hn.lifted hm hform'
      exact ⟨Rule.tests_of_remains hremains, fun m hm' =>
        .inl (Rule.fits_simplified hadmits hhoisted hremains hm')⟩
  | declaration l span hl =>
    obtain rfl : k = .statement := by
      have := hn.admits
      cases k <;> first | rfl | cases this
    refine (gives_reduce_declaration hl).mono ?_
    rintro _ rfl
    exact .inl .empty
  | definitions kind bs span ihAssignments =>
    refine (gives_reduce_definitions (R := fun _ m => m.Fits false .expression)
      fun a ha => ?_).mono ?_
    · exact (ihAssignments a ha (fits_assignments? hn ha) Setting.expression_below).mono
        fun m hm => hm.fits (by decide)
    · rintro _ ⟨a?, ha, rfl⟩
      exact Rule.remains_placeAssignments hn.admits hs ha

/-- A well-formed program comes to one, in every context that no rule can tell from none. -/
theorem gives_wellFormed (hn : n.WellFormed) :
    Gives (fun _ => False) Setting.initial.Holds (n.reduce o) Node.WellFormed := by
  obtain ⟨form, span⟩ := n
  obtain ⟨body, rfl, hbody⟩ := hn
  refine gives_reduce (R := fun j _ m => m.Remains j) rfl (fun c hc => hc.1) (fun j a ha => ?_) ?_
  · have hbelow := Category.below_of_mem_parts ha
    rw [Hoist.enclosureKind_surfaceForm] at hbelow
    exact (gives_remains (Hoist.fits_surfaceProgram hbody ha) hbelow).narrow
      fun _ => Setting.holds_child
  · intro form' hform'
    have hremains := hform'.remains fun _ _ _ hm => hm
    refine ⟨Rule.tests_of_remains hremains, fun m hm => ?_⟩
    cases hform' with
    | program =>
      obtain rfl := hm
      refine ⟨_, rfl, fun a ha => (hremains .statement a ?_).fits (by decide)⟩
      simpa [Form.parts] using ha

/-- A well-formed program is reduced to a well-formed program, whatever the options. -/
theorem minify_wellFormed (o : Options) (n : Node) (hn : n.WellFormed) :
    ∃ m, (minify o n).result = .ok m ∧ m.WellFormed := by
  obtain ⟨m, hm, hrun⟩ := (gives_wellFormed hn).ok
  obtain ⟨ws, hrun⟩ := hrun [] Setting.holds_initial []
  exact ⟨m, congrArg Prod.fst hrun, hm⟩

/-- `for (var x in y);`, where the `var` is hoisted out of a place that an assignment cannot take. -/
theorem minify_enumeration_wellFormed :
    let n := Build.program [(Form.forIn (Build.var [("x", none)]) (Build.identifier "y")
      Build.empty).node]
    n.WellFormed ∧ ∃ m, (minify .full n).result = .ok m ∧ m.WellFormed := by
  intro n
  have hn : n.WellFormed := by
    refine ⟨_, rfl, fun a ha => ?_⟩
    obtain rfl := List.mem_singleton.1 ha
    refine .mk rfl rfl fun j a ha => ?_
    simp only [Form.parts, List.mem_cons, Prod.mk.injEq, List.not_mem_nil, or_false] at ha
    obtain ⟨rfl, rfl⟩ | ⟨rfl, rfl⟩ | ⟨rfl, rfl⟩ := ha
    · exact .leaf rfl rfl rfl
    · exact .leaf rfl rfl rfl
    · exact .empty
  exact ⟨hn, minify_wellFormed .full n hn⟩

end ScriptMinifier
