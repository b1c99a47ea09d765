import ScriptMinifier.Proofs.WellFormed

namespace ScriptMinifier

variable {o : Options} {x : String} {span : Span} {n m c : Node} {k : Category}

/-- The names that a `var` or a function declaration binds. -/
def Form.declaredNames {α : Type} : Form α → List String
  | .definitions .var bindings _ => bindings.map (·.name)
  | .declaration l => l.name.toList
  | _ => []

def Form.isDeclaration {α : Type} : Form α → Bool
  | .definitions .. | .declaration _ => true
  | _ => false

/-- Something that holds of declarations alone, whatever their initializers. -/
class Form.Declarative (p : Form Node → Prop) : Prop where
  of_ordinary : ∀ form, form.isDeclaration = false → ¬p form
  bare : ∀ kind bs h, p (.definitions kind (bs.map Binding.bare) h) ↔ p (.definitions kind bs h)

instance : Form.Declarative (x ∈ ·.declaredNames) where
  of_ordinary form hd hx := by
    cases form with
    | definitions | declaration => cases hd
    | _ => cases hx
  bare kind bs h := by
    cases kind with
    | var => simp [Form.declaredNames, Function.comp_def]
    | const => rfl

variable {p : Form Node → Prop} [Form.Declarative p]

/-- The parts of a form in which its names can be declared, less what the rules for `if` and `while`
drop by the values of conditions. A nested function keeps its declarations to itself. -/
def Form.kept (o : Options) (value? : Node → Option Primitive) : Form Node → List Node
  | .branch c body alternative =>
    match if o.on .conditionals then value? c else none with
    | some v => if v.truthy then [body] else alternative.toList
    | none => body :: alternative.toList
  | .loop kind c body =>
    if o.on .loops ∧ kind = .whileDo ∧ (value? c).any (!·.truthy) then [] else [body]
  | .declaration _ | .function _ => []
  | form => form.children

namespace Form

theorem kept_withHoisted (b : Bool) (form : Form Node) {value? : Node → Option Primitive} :
    (form.withHoisted b).kept o value? = form.kept o value? := by
  cases form <;> rfl

/-- A map that leaves the values of conditions as they are leaves the choice of what is kept. -/
theorem kept_map {f : Node → Node} {form : Form Node} {value? : Node → Option Primitive}
    (hf : ∀ c, (.condition, c) ∈ form.parts → value? (f c) = value? c) :
    (form.map f).kept o value? = (form.kept o value?).map f := by
  have hchildren := children_map f form
  cases form with
  | branch c body alternative =>
    have hc := hf c (by simp [parts])
    simp only [map, kept, hc]
    split
    · split
      · rfl
      · cases alternative <;> rfl
    · cases alternative <;> rfl
  | loop kind c body =>
    have hc := hf c (by simp [parts])
    simp only [map, kept, hc]
    split_ifs <;> rfl
  | declaration | function => rfl
  | _ => exact hchildren

end Form

/-- A search outside nested functions finds a form of which `p` holds. -/
def Node.Finds (p : Form Node → Prop) (n : Node) : Prop :=
  ∃ d ∈ n.visited Hoist.searchesBelow, p d.form

/-- Outside nested functions the name is bound by a `var` or a function declaration. -/
def Node.Declares (x : String) (n : Node) : Prop := n.Finds (x ∈ ·.declaredNames)

theorem exists_mem_flatMap {α β : Type} {f : α → List β} {p : β → Prop} {as : List α} :
    (∃ b ∈ as.flatMap f, p b) ↔ ∃ a ∈ as, ∃ b ∈ f a, p b := by
  constructor
  · rintro ⟨b, hb, hp⟩
    obtain ⟨a, ha, hb⟩ := List.mem_flatMap.1 hb
    exact ⟨a, ha, b, hb, hp⟩
  · rintro ⟨a, ha, b, hb, hp⟩
    exact ⟨b, List.mem_flatMap.2 ⟨a, ha, hb⟩, hp⟩

namespace Node

theorem exists_mem_visited {descend : Node → Bool} {p : Node → Prop} :
    (∃ d ∈ n.visited descend, p d) ↔
      p n ∨ (descend n = true ∧ ∃ c ∈ n.children, ∃ d ∈ c.visited descend, p d) := by
  rw [visited_eq, List.exists_mem_cons_iff]
  refine or_congr_right ?_
  by_cases hs : descend n = true
  · rw [if_pos hs, exists_mem_flatMap, and_iff_right hs]
  · simp [hs]

omit [Form.Declarative p] in
theorem finds_iff : n.Finds p ↔ p n.form ∨
    (Hoist.searchesBelow n = true ∧ ∃ c ∈ n.children, c.Finds p) :=
  exists_mem_visited

/-- In a form that a search goes below and that is no declaration, what is found is found below. -/
theorem finds_mk {form : Form Node} (hs : Hoist.searchesBelow ⟨form, span⟩ = true)
    (hd : form.isDeclaration = false) :
    (⟨form, span⟩ : Node).Finds p ↔ ∃ c ∈ form.children, c.Finds p := by
  rw [finds_iff, form_mk, or_iff_right (Form.Declarative.of_ordinary form hd), and_iff_right hs]
  rfl

theorem declares_mk {form : Form Node} (hs : Hoist.searchesBelow ⟨form, span⟩ = true)
    (hd : form.isDeclaration = false) :
    (⟨form, span⟩ : Node).Declares x ↔ ∃ c ∈ form.children, c.Declares x :=
  finds_mk (p := (x ∈ ·.declaredNames)) hs hd

section Forms

variable {a b : Node}

@[simp] theorem finds_empty : ¬(⟨.empty, span⟩ : Node).Finds p := by
  rw [finds_mk rfl rfl]
  simp [Form.children]

@[simp] theorem finds_expression : (⟨.expression a, span⟩ : Node).Finds p ↔ a.Finds p :=
  (finds_mk rfl rfl).trans (by simp [Form.children])

@[simp] theorem finds_sequence :
    (⟨.sequence a b, span⟩ : Node).Finds p ↔ a.Finds p ∨ b.Finds p :=
  (finds_mk rfl rfl).trans (by simp [Form.children])

@[simp] theorem finds_exit {kind : ExitKind} :
    (⟨.exit kind (some a), span⟩ : Node).Finds p ↔ a.Finds p :=
  (finds_mk rfl rfl).trans (by simp [Form.children])

@[simp] theorem finds_block {body : List Node} :
    (⟨.block body, span⟩ : Node).Finds p ↔ ∃ n ∈ body, n.Finds p :=
  (finds_mk rfl rfl).trans (by simp [Form.children])

@[simp] theorem finds_branch {alternative : Option Node} :
    (⟨.branch c a alternative, span⟩ : Node).Finds p ↔
      c.Finds p ∨ a.Finds p ∨ ∃ b ∈ alternative, b.Finds p :=
  (finds_mk rfl rfl).trans (by simp [Form.children])

@[simp] theorem finds_loop {kind : LoopKind} :
    (⟨.loop kind c a, span⟩ : Node).Finds p ↔ c.Finds p ∨ a.Finds p := by
  refine (finds_mk rfl rfl).trans ?_
  cases kind <;> simp [Form.children, or_comm]

omit [Form.Declarative p] in
@[simp] theorem finds_declaration {l : Lambda Node} :
    (⟨.declaration l, span⟩ : Node).Finds p ↔ p (.declaration l) := by
  rw [finds_iff]
  simp [Hoist.searchesBelow]

end Forms

/-- An expression declares nothing outside its functions. -/
theorem BuiltOf.not_finds {P : Form Node → Prop} (hn : n.BuiltOf P) : ¬n.Finds p := by
  induction n using Node.induct with
  | h n ih =>
    obtain ⟨form, span⟩ := n
    have hs := hn.isStatement
    rw [finds_iff]
    rintro (hname | ⟨hsearch, c, hc, hfinds⟩)
    · refine Form.Declarative.of_ordinary form ?_ hname
      cases form with
      | definitions | declaration => cases hs
      | _ => rfl
    · have hscope : form.opensScope = false := by
        cases form <;> first | rfl | exact absurd hsearch Bool.false_ne_true | cases hs
      exact ih c hc (hn.child hscope hc) hfinds

theorem not_finds_of_fits {marks : Bool} (hn : n.Fits marks .expression) : ¬n.Finds p :=
  hn.builtOf.not_finds

/-- What is kept of a form is among what a search for declarations sees. -/
theorem mem_children_of_kept {value? : Node → Option Primitive} (hc : c ∈ n.form.kept o value?) :
    Hoist.searchesBelow n = true ∧ c ∈ n.children := by
  obtain ⟨form, span⟩ := n
  simp only [children, form_mk] at hc ⊢
  cases form with
  | branch condition body alternative =>
    refine ⟨rfl, ?_⟩
    simp only [Form.kept] at hc
    simp only [Form.children]
    split at hc
    · split at hc <;> simp_all
    · simp_all
  | loop kind condition body =>
    refine ⟨rfl, ?_⟩
    simp only [Form.kept] at hc
    split at hc
    · cases hc
    · cases kind <;> simp_all [Form.children]
  | declaration | function => cases hc
  | _ => exact ⟨rfl, hc⟩

omit [Form.Declarative p] in
theorem finds_of_mem_kept {value? : Node → Option Primitive} (hc : c ∈ n.form.kept o value?)
    (hfinds : c.Finds p) : n.Finds p := by
  obtain ⟨hs, hmem⟩ := mem_children_of_kept hc
  exact finds_iff.2 (.inr ⟨hs, c, hmem, hfinds⟩)

end Node

namespace Statements

variable {marks : Bool} {ns : List Node}

/-- What is left of a statement that cannot be reached declares what the statement declares. -/
theorem finds_keptDeclarations (hn : n.Fits marks k) :
    (∃ d ∈ keptDeclarations n, d.Finds p) ↔ n.Finds p := by
  induction n using Node.induct generalizing k with
  | h n ih =>
    obtain ⟨form, span⟩ := n
    have hchildren : (∃ d ∈ (form.children.flatMap (Node.visited searchesBelow)).filterMap
        keptDeclaration?, d.Finds p) ↔ ∃ c ∈ form.children, c.Finds p := by
      rw [List.filterMap_flatMap, exists_mem_flatMap]
      refine exists_congr fun c => and_congr_right fun hc => ?_
      obtain ⟨j, hj⟩ := Form.exists_part hc
      exact ih c hc (hn.part hj)
    rw [keptDeclarations, Node.visited_eq, List.filterMap_cons]
    cases form with
    | declaration l => simp [keptDeclaration?, searchesBelow, Node.opensScope, Form.opensScope]
    | definitions kind bs hoisted =>
      have hvalues (c : Node) (hc : c ∈ (Form.definitions kind bs hoisted).children) :
          ¬c.Finds p :=
        Node.not_finds_of_fits (hn.part (List.mem_map_of_mem hc))
      change (∃ d ∈ [(⟨.definitions kind (bs.map Binding.bare) hoisted, span⟩ : Node)], _) ↔ _
      simp only [List.mem_singleton, exists_eq_left]
      rw [Node.finds_iff, Node.finds_iff, Node.form_mk, Form.Declarative.bare (p := p)]
      refine or_congr_right (iff_of_false ?_ ?_)
      · rintro ⟨-, c, hc, -⟩
        simp [Node.children, Form.children, List.filterMap_map, Function.comp_def] at hc
      · rintro ⟨-, c, hc, hfinds⟩
        exact hvalues c hc hfinds
    | function l =>
      have hfunction : ¬p (.function l) := Form.Declarative.of_ordinary _ rfl
      rw [Node.finds_iff]
      simp [keptDeclaration?, searchesBelow, Node.opensScope, Form.opensScope, hfunction,
        Hoist.searchesBelow]
    | program body =>
      have hadmits := hn.admits
      cases k <;> cases hadmits
    | _ =>
      exact hchildren.trans (Node.finds_mk rfl rfl).symm

theorem finds_survivors (hn : n.Fits marks k) :
    (∃ d ∈ survivors n, d.Finds p) ↔ n.Finds p := by
  have hkept := finds_keptDeclarations (p := p) hn
  obtain ⟨form, span⟩ := n
  cases form with
  | declaration l => simp [survivors]
  | _ => exact hkept

theorem finds_flatten (ns : List Node) :
    (∃ n ∈ flatten ns, n.Finds p) ↔ ∃ n ∈ ns, n.Finds p := by
  induction ns with
  | nil => rfl
  | cons n ns ih =>
    rw [List.exists_mem_cons_iff, ← ih]
    obtain ⟨form, span⟩ := n
    cases form with
    | block body => simp [flatten, or_and_right, exists_or]
    | empty => simp [flatten]
    | _ => exact List.exists_mem_cons_iff _ _ _

theorem finds_pruned (hns : ∀ n ∈ ns, n.Fits marks .statement) :
    (∃ n ∈ pruned ns, n.Finds p) ↔ ∃ n ∈ ns, n.Finds p := by
  induction ns with
  | nil => rfl
  | cons n ns ih =>
    obtain ⟨-, hrest⟩ := List.forall_mem_cons.1 hns
    rw [pruned, List.exists_mem_cons_iff]
    split
    · rw [List.exists_mem_cons_iff, exists_mem_flatMap]
      refine or_congr_right (exists_congr fun m => and_congr_right fun hm => ?_)
      exact finds_survivors (hrest m hm)
    · rw [List.exists_mem_cons_iff, ih hrest]

theorem finds_joinRuns (ns : List Node) :
    (∃ n ∈ joinRuns ns, n.Finds p) ↔ ∃ n ∈ ns, n.Finds p := by
  fun_induction joinRuns ns with
  | case1 a span b s ns ih => simp [ih, or_assoc]
  | case2 n ns _ ih => rw [List.exists_mem_cons_iff, List.exists_mem_cons_iff, ih]
  | case3 => rfl

theorem finds_join (ns : List Node) :
    (∃ n ∈ join ns, n.Finds p) ↔ ∃ n ∈ ns, n.Finds p := by
  have hruns := finds_joinRuns (p := p) ns
  unfold join
  split
  · rename_i heq
    rw [← hruns, heq]
    simp
  · exact hruns

/-- Tidying a list loses no declaration and adds none. -/
theorem finds_tidied (hns : ∀ n ∈ ns, n.Fits marks .statement) :
    (∃ n ∈ tidied o ns, n.Finds p) ↔ ∃ n ∈ ns, n.Finds p := by
  have hflat := finds_flatten (p := p) ns
  have hpruned := finds_pruned (p := p) (stable_fits.flatten hns)
  unfold tidied
  split <;> split <;> simp only [finds_join, hpruned, hflat]

end Statements

namespace Rule

variable {truth : Bool} {body : Node} {alternative : Option Node} {form : Form Node}

theorem kept_branch (c body : Node) (alternative : Option Node)
    (hopen : o.on .conditionals = true → o.value? c = none) :
    (Form.branch c body alternative).kept o o.value? = body :: alternative.toList := by
  by_cases hon : o.on .conditionals = true
  · simp [Form.kept, hon, hopen hon]
  · simp [Form.kept, hon]

/-- What an `if` becomes that is not decided declares what its branches declare. -/
theorem Merged.finds_iff (h : Merged o truth c body alternative span m)
    (hopen : o.value? c = none) (hc : c.Fits false .expression) (hb : body.Fits false .statement)
    (ha : ∀ a ∈ alternative, a.Fits false .statement) :
    m.Finds p ↔ body.Finds p ∨ ∃ a ∈ alternative, a.Finds p := by
  have hm := (carries_fits o false).merged h (fun _ => hopen) hc hb ha
  have hvalue {e : Node} {s : Span} (h : (⟨.expression e, s⟩ : Node).Fits false .statement) :
      ¬e.Finds p :=
    Node.not_finds_of_fits (h.part (List.mem_singleton_self _))
  have hexit {kind : ExitKind} {e : Node} {s : Span}
      (h : (⟨.exit kind (some e), s⟩ : Node).Fits false .statement) : ¬e.Finds p :=
    Node.not_finds_of_fits (h.part (List.mem_singleton_self _))
  cases h with
  | both hb' ha' =>
    subst hb' ha'
    simp [hvalue hm, hvalue hb, hvalue (ha _ rfl)]
  | whenTrue hb' ha' =>
    subst hb'
    obtain rfl | ⟨s, rfl⟩ := ha' <;> simp [hvalue hm, hvalue hb]
  | whenFalse hb' ha' =>
    subst hb' ha'
    simp [hvalue hm, hvalue (ha _ rfl)]
  | exits hb' ha' =>
    subst hb' ha'
    simp [hexit hm, hexit hb, hexit (ha _ rfl)]
  | same =>
    have hcondition := Node.not_finds_of_fits (p := p) hc
    simp [hcondition]

/-- The rule for `if` keeps what is declared in the branches that it does not drop. -/
theorem Branched.finds_iff (h : Branched o truth c body alternative span m)
    (hc : c.Fits false .expression) (hb : body.Fits false .statement)
    (ha : ∀ a ∈ alternative, a.Fits false .statement) :
    m.Finds p ↔ ∃ n ∈ (Form.branch c body alternative).kept o o.value?, n.Finds p := by
  have hempty : ¬(Node.empty span).Finds p := Node.finds_empty
  cases h with
  | known hon hv =>
    simp only [Form.kept, if_pos hon, hv]
    split
    · simp
    · cases alternative with
      | none => simpa using hempty
      | some a => simp
  | merged hon hopen hswap hn =>
    rw [kept_branch c body alternative fun _ => hopen]
    unfold swapNegated at hswap
    split at hswap
    · cases hswap
      have helse : (alternative.getD (.empty span)).Fits false .statement := by
        cases alternative with
        | none => exact .empty
        | some a => exact ha a rfl
      have hoperand := Options.value?_of_negate (b := false) rfl hopen
      refine (hn.finds_iff hoperand
        (hc.part (by simp [Form.parts, UnaryOperator.operandCategory])) helse
        fun a ha' => Option.some.inj ha' ▸ hb).trans ?_
      cases alternative with
      | none => simp [hempty]
      | some a => simp [or_comm]
    · cases hswap
      rw [hn.finds_iff hopen hc hb ha]
      simp
  | off hoff =>
    have hcondition := Node.not_finds_of_fits (p := p) hc
    rw [kept_branch c body alternative fun hon => absurd hon (by simp [hoff])]
    simp [hcondition]

/-- The rule for loops keeps what is declared in a body that may be entered. -/
theorem Looped.finds_iff {kind : LoopKind} (h : Looped o kind c body span m)
    (hc : c.Fits false .expression) :
    m.Finds p ↔ ∃ n ∈ (Form.loop kind c body).kept o o.value?, n.Finds p := by
  have hcondition := Node.not_finds_of_fits (p := p) hc
  cases h with
  | forever _ hv ht =>
    exact (Node.finds_mk rfl rfl).trans (by simp [Form.children, Form.kept, hv, ht])
  | never hon hv ht hk =>
    exact iff_of_false Node.finds_empty (by simp [Form.kept, hon, hv, ht, hk])
  | same hopen =>
    have hkept : (Form.loop kind c body).kept o o.value? = [body] := by
      refine if_neg ?_
      rintro ⟨hon, hk, hany⟩
      cases hv : o.value? c with
      | none => simp [hv] at hany
      | some v =>
        have hrun := hopen hon v hv
        exact absurd (hk.symm.trans hrun.2) (by decide)
    simp [hkept, hcondition]

/-- The rule for a form keeps what the form declares, and the parts that it does not drop. -/
theorem finds_simplified (hk : k.admits form = true) (hm : form.isHoisted = false)
    (hp : ∀ j a, (j, a) ∈ form.parts → a.Remains j) (h : Simplified o truth span form m) :
    m.Finds p ↔ p form ∨ ∃ n ∈ form.kept o o.value?, n.Finds p := by
  have hpart {j : Category} {a : Node} (ha : (j, a) ∈ form.parts) (hj : j ≠ .head) :
      a.Fits false j := (hp j a ha).fits hj
  have hordinary : form.isDeclaration = false → ¬p form := Form.Declarative.of_ordinary form
  by_cases hs : form.isStatement = true
  · cases form with
    | debugger =>
      obtain rfl := h
      refine iff_of_false ?_ (by simp [hordinary rfl, Form.kept, Form.children])
      split
      · exact Node.finds_empty
      · rw [Node.finds_mk rfl rfl]
        simp [Form.children]
    | labeled label body =>
      obtain rfl := h
      split
      · simp [hordinary rfl, Form.kept, Form.children]
      · rw [Node.finds_iff]
        exact or_congr_right (and_iff_right rfl)
    | block body =>
      obtain ⟨a, rfl, rfl⟩ | rfl := simplified_block h
      · simp [hordinary rfl, Form.kept, Form.children]
      · rw [Node.finds_iff]
        exact or_congr_right (and_iff_right rfl)
    | branch c body alternative =>
      have hc : c.Fits false .condition := hpart (by simp [Form.parts]) (by decide)
      rw [or_iff_right (hordinary rfl)]
      exact Branched.finds_iff h hc.condition (hpart (by simp [Form.parts]) (by decide))
        fun a ha => hpart (by simp_all [Form.parts]) (by decide)
    | loop kind c body =>
      have hc : c.Fits false .condition := hpart (by simp [Form.parts]) (by decide)
      rw [or_iff_right (hordinary rfl)]
      exact Looped.finds_iff h hc.condition
    | forLoop init c step body =>
      obtain rfl := h
      have hinit : (∃ n ∈ (init.filter (!·.isEmpty)).toList, n.Finds p) ↔
          ∃ n ∈ init.toList, n.Finds p := by
        cases init with
        | none => rfl
        | some a =>
          obtain ⟨form, s⟩ := a
          cases form <;> simp [Node.isEmpty]
      rw [Node.finds_mk rfl rfl, or_iff_right (hordinary rfl)]
      simp only [Form.kept, Form.children, List.mem_append, or_and_right, exists_or, hinit]
    | declaration l =>
      obtain rfl := h
      simp [Form.kept]
    | function => cases hs
    | _ =>
      first
        | exact absurd hs Bool.false_ne_true
        | (obtain rfl := h
           rw [Node.finds_iff]
           exact or_congr_right (and_iff_right rfl))
  · have hexpression : Category.expression.admits form = true := by simpa [Category.admits] using hs
    have hreduced := fits_simplified hexpression hm hp h
    have hform : (⟨form, span⟩ : Node).Fits false .expression := by
      refine .mk hexpression (by simp [Form.mayCarry, hm]) fun j a ha => hpart ha ?_
      rintro rfl
      cases form <;> simp_all [Form.parts, Form.isStatement]
    refine iff_of_false (Node.not_finds_of_fits hreduced) ?_
    rintro (hself | ⟨c, hc, hfinds⟩)
    · exact Node.not_finds_of_fits hform (Node.finds_iff.2 (.inl hself))
    · exact Node.not_finds_of_fits hform (Node.finds_of_mem_kept hc hfinds)

/-- What stands for a marked `var` declares nothing. -/
theorem not_finds_placeAssignments {parent? : Option Enclosure} {bs : List (Binding Node)}
    {a? : Option Node} (ha : ∀ a ∈ a?, ¬a.Finds p) :
    ¬(placeAssignments parent? bs a? span).Finds p := by
  unfold placeAssignments
  split
  · exact ha _ rfl
  · split
    · exact Node.finds_empty
    · rw [Node.finds_mk rfl rfl]
      simp [Form.children]
  · exact ha _ rfl
  · rw [Node.finds_expression]
    exact ha _ rfl
  · exact Node.finds_empty

end Rule

end ScriptMinifier
