import ScriptMinifier.Proofs.BoundNames
import ScriptMinifier.Proofs.Surface

namespace ScriptMinifier

open Pass (Gives)

variable {o : Options} {x : String} {span : Span} {n m c : Node} {k : Category}
  {p : Form Node → Prop}

/-- The value that a condition of a form of kind `e` folds to once it is reduced. -/
def Options.verdict? (o : Options) (e : EnclosureKind) (c : Node) : Option Primitive :=
  match ((c.reduce o).run ⟨[⟨e, .condition⟩], []⟩).1 with
  | .ok c' => o.value? c'
  | .error _ => none

/-- The name is bound by a declaration that the scope lists at its top. -/
def Hoist.Lists (h : Hoist) (x : String) (n : Node) : Prop :=
  ∃ d ∈ n.visited Hoist.searchesBelow, h.hoists d = true ∧ x ∈ d.form.declaredNames

/-- A form of which `p` holds stands where no rule drops it. A marked declaration does not count, for
it is replaced. -/
inductive Node.Keeps (o : Options) (p : Form Node → Prop) : Node → Prop
  | here {n : Node} : n.form.isMarked = false → p n.form → Keeps o p n
  | part {n c : Node} : c ∈ n.form.kept o (o.verdict? n.form.enclosureKind) → Keeps o p c →
    Keeps o p n

/-- The name is bound where no rule drops the declaration. -/
def Node.Retains (o : Options) (x : String) (n : Node) : Prop := n.Keeps o (x ∈ ·.declaredNames)

namespace Node

/-- What is kept is found. -/
theorem Keeps.finds (h : n.Keeps o p) : n.Finds p := by
  induction h with
  | @here n _ hself => exact finds_iff.2 (.inl hself)
  | @part n c hc _ ih => exact finds_of_mem_kept hc ih

theorem keeps_iff : n.Keeps o p ↔ n.form.isMarked = false ∧ p n.form ∨
    ∃ c ∈ n.form.kept o (o.verdict? n.form.enclosureKind), c.Keeps o p := by
  constructor
  · intro h
    cases h with
    | here hm hself => exact .inl ⟨hm, hself⟩
    | part hc h => exact .inr ⟨_, hc, h⟩
  · rintro (⟨hm, hself⟩ | ⟨c, hc, h⟩)
    · exact .here hm hself
    · exact .part hc h

theorem retains_iff : n.Retains o x ↔ n.form.isMarked = false ∧ x ∈ n.form.declaredNames ∨
    ∃ c ∈ n.form.kept o (o.verdict? n.form.enclosureKind), c.Retains o x :=
  keeps_iff

end Node

/-- What is to be shown of a part along the pass. What a condition becomes does not depend on what
is around the form. -/
structure Node.Becomes (o : Options) (p : Form Node → Prop) (e : EnclosureKind) (k : Category)
    (a b : Node) : Prop where
  remains : b.Remains k
  finds : b.Finds p ↔ a.Keeps o p
  condition : k = .condition → Hoist.ReducesTo o [⟨e, .condition⟩] a b

theorem Options.verdict?_of_reducesTo {e : EnclosureKind} {c' : Node}
    (h : Hoist.ReducesTo o [⟨e, .condition⟩] c c') : o.verdict? e c = o.value? c' := by
  rw [verdict?, h []]

/-- In a tidied list is found what is kept of the statements that its statements come from. -/
theorem Statements.Tidied.finds_iff [Form.Declarative p] {P : Node → Prop}
    {R : Node → Node → Prop} {as bs : List Node} (h : Statements.Tidied o R as bs)
    (hfits : ∀ a b, R a b → b.Fits false .statement)
    (hR : ∀ a b, R a b → (b.Finds p ↔ P a)) :
    (∃ b ∈ bs, b.Finds p) ↔ ∃ a ∈ as, P a := by
  obtain ⟨ms, hms, rfl⟩ := h
  have hmsFits : ∀ m ∈ ms, m.Fits false .statement := by
    intro m hm
    obtain ⟨a, -, ha⟩ := exists_of_forall₂ hms hm
    exact hfits a m ha
  rw [finds_tidied hmsFits]
  clear hmsFits
  induction hms with
  | nil => simp
  | cons h _ ih =>
    rw [List.exists_mem_cons_iff, List.exists_mem_cons_iff]
    exact or_congr (hR _ _ h) ih

/-- A tidied list declares what is retained of the statements that its statements come from. -/
theorem Statements.Tidied.declares_iff {R : Node → Node → Prop} {as bs : List Node}
    (h : Statements.Tidied o R as bs) (hfits : ∀ a b, R a b → b.Fits false .statement)
    (hR : ∀ a b, R a b → (b.Declares x ↔ a.Retains o x)) :
    (∃ b ∈ bs, b.Declares x) ↔ ∃ a ∈ as, a.Retains o x :=
  h.finds_iff (p := (x ∈ ·.declaredNames)) hfits hR

/-- A condition is asked for its truth alone, wherever the form stands. -/
theorem Setting.holds_condition {form : Form Node} (hc : (.condition, c) ∈ form.parts)
    (s : Setting) :
    (s.child form.enclosureKind .condition).Holds [⟨form.enclosureKind, .condition⟩] := by
  cases form with
  | branch | conditional | loop | forLoop => exact ⟨rfl, rfl⟩
  | unary op | update op => cases op <;> simp [Form.parts, UnaryOperator.operandCategory] at hc
  | _ => simp [Form.parts] at hc

namespace Form

theorem Lift.declaredNames {form form' : Form Node} {R : Category → Node → Node → Prop}
    {L : List Node → List Node → Prop} (h : form.Lift R L form') :
    form'.declaredNames = form.declaredNames := by
  cases h with
  | @definitions kind bs bs' _ h =>
    have hnames : bs'.map (·.name) = bs.map (·.name) := by
      induction h with
      | nil => rfl
      | cons hb _ ih =>
        cases hb with
        | mk => rw [List.map_cons, List.map_cons, ih]
    cases kind with
    | var => exact hnames
    | const => rfl
  | _ => rfl

/-- The rules for `if` and `while` drop the same parts of a form before and after its parts are
reduced. -/
theorem Lift.finds_kept [Declarative p] {form form' : Form Node} {e : EnclosureKind}
    (he : form.enclosureKind = e) (h : form.Lift (Node.Becomes o p e)
      (Statements.Tidied o (Node.Becomes o p e .statement)) form') :
    (∃ b ∈ form'.kept o o.value?, b.Finds p) ↔
      ∃ a ∈ form.kept o (o.verdict? e), a.Keeps o p := by
  subst he
  cases form with
  | branch c body alternative =>
    cases h with
    | @branch _ c' _ body' _ alternative' hc hb ha =>
      have hverdict : o.verdict? .branch c = o.value? c' :=
        Options.verdict?_of_reducesTo (hc.condition rfl)
      have halternative : (∃ b ∈ alternative'.toList, b.Finds p) ↔
          ∃ a ∈ alternative.toList, a.Keeps o p := by
        cases ha with
        | none => simp
        | some ha => simp [ha.finds]
      simp only [kept, enclosureKind, hverdict]
      split
      · split
        · simp [hb.finds]
        · exact halternative
      · rw [List.exists_mem_cons_iff, List.exists_mem_cons_iff, hb.finds, halternative]
  | loop kind c body =>
    cases h with
    | @loop _ _ c' _ body' hc hb =>
      have hverdict : o.verdict? .loop c = o.value? c' :=
        Options.verdict?_of_reducesTo (hc.condition rfl)
      simp only [kept, enclosureKind, hverdict]
      split
      · simp
      · simp [hb.finds]
  | declaration | function =>
    cases h
    simp [kept]
  | _ =>
    have hkept : form'.kept o o.value? = form'.children := by
      cases h
      rfl
    rw [hkept]
    refine h.children.exists_iff (fun _ _ _ hab => hab.finds) fun as bs hbs => ?_
    exact hbs.finds_iff (fun _ _ hab => hab.remains.fits (by decide))
      fun _ _ hab => hab.finds

end Form

namespace Hoist

variable {h : Hoist}

theorem declaredNames_surfaceForm (form : Form Node) :
    (h.surfaceForm span form).declaredNames = form.declaredNames := by
  cases form <;> rfl

theorem kept_surfaceForm {form : Form Node} {value? : Node → Option Primitive}
    (hn : ∀ body, form ≠ .program body) :
    (h.surfaceForm span form).kept o value? = form.kept o value? := by
  cases form with
  | program body => exact absurd rfl (hn body)
  | _ => rfl

end Hoist

/-- The invariant of the pass: in what a tree that fits its place becomes is found what is kept of
the tree. -/
theorem gives_finds [Form.Declarative p]
    (hlift : ∀ {form form' R L}, form.Lift R L form' → (p form' ↔ p form))
    (hsurface : ∀ span form, p (o.hoist.surfaceForm span form) ↔ p form)
    (hn : n.Fits true k) {s : Setting} (hs : k.Below s.parent?) {c₀ : Context}
    (hc : s.Holds c₀) : Gives (fun _ => False) s.Holds (n.reduce o) fun m =>
      m.Remains k ∧ (m.Finds p ↔ n.Keeps o p) := by
  induction n using Node.reduceInduct o generalizing k s c₀ with
  | unmarked form span hm ihParts =>
    refine (gives_remains hn hs).and ?_ hc
    have hprogram : ∀ body, form ≠ .program body := Hoist.form_ne_program hn
    have hparts : ∀ j a, (j, a) ∈ (o.hoist.surfaceForm span form).parts → a.Fits true j :=
      Hoist.fits_surfaceForm fun j a ha => hn.part ha
    refine gives_reduce (R := Node.Becomes o p form.enclosureKind) hm (fun c hc => hc.1)
      (fun j a ha => ?_) fun form' h => ?_
    · have hbelow := Category.below_of_mem_parts ha
      rw [Hoist.enclosureKind_surfaceForm] at hbelow
      have hchild : (s.child form.enclosureKind j.role).Holds
          (⟨form.enclosureKind, j.role⟩ :: c₀) :=
        Setting.holds_child ⟨c₀, hc, rfl⟩
      have hpart := ihParts j a ha (hparts j a ha) hbelow hchild
      by_cases hj : j = .condition
      · subst hj
        have hcondition := Setting.holds_condition ha s
        rw [Hoist.enclosureKind_surfaceForm] at hcondition
        refine ((hpart.result _ hcondition).mono fun m hm => ?_).narrow fun _ => Setting.holds_child
        exact ⟨hm.1.1, hm.1.2, fun _ => hm.2⟩
      · refine (hpart.mono fun m hm => ?_).narrow fun _ => Setting.holds_child
        exact ⟨hm.1, hm.2, fun h => absurd h hj⟩
    · have hremains := h.remains fun _ _ _ hab => hab.remains
      refine ⟨Rule.tests_of_remains hremains, fun m hm' => ?_⟩
      obtain ⟨hadmits, hhoisted⟩ := hn.lifted hm h
      have hself : p form' ↔ p form := (hlift h).trans (hsurface span form)
      have hkept := Form.Lift.finds_kept (Hoist.enclosureKind_surfaceForm form) h
      rw [Hoist.kept_surfaceForm hprogram] at hkept
      rw [Rule.finds_simplified hadmits hhoisted hremains hm', Node.keeps_iff, hself, hkept]
      simp [hm]
  | declaration l span hl =>
    refine (gives_remains hn hs).and ((gives_reduce_declaration hl).mono ?_) hc
    rintro _ rfl
    refine iff_of_false Node.finds_empty ?_
    rw [Node.keeps_iff]
    simp [Form.isMarked, hl, Form.kept]
  | definitions kind bs span _ =>
    refine (gives_remains hn hs).and ?_ hc
    refine (gives_reduce_definitions (R := fun _ m => m.Fits false .expression)
      fun a ha => ?_).mono ?_
    · exact (gives_remains (fits_assignments? hn ha) Setting.expression_below).mono
        fun m hm => hm.fits (by decide)
    · rintro _ ⟨a?, ha, rfl⟩
      refine iff_of_false (Rule.not_finds_placeAssignments fun a ha' => ?_) ?_
      · obtain ⟨_, -, hfits⟩ := exists_of_rel ha ha'
        exact Node.not_finds_of_fits hfits
      · rw [Node.keeps_iff]
        rintro (⟨hunmarked, -⟩ | ⟨c, hc, hkeeps⟩)
        · cases hunmarked
        · have hfits : c.Fits true .expression := hn.part (List.mem_map_of_mem hc)
          exact Node.not_finds_of_fits hfits hkeeps.finds

/-- What a tree that fits its place becomes declares the names that the tree retains. -/
theorem gives_declares (hn : n.Fits true k) {s : Setting} (hs : k.Below s.parent?) {c₀ : Context}
    (hc : s.Holds c₀) : Gives (fun _ => False) s.Holds (n.reduce o) fun m =>
      m.Remains k ∧ (m.Declares x ↔ n.Retains o x) := by
  refine gives_finds (p := (x ∈ ·.declaredNames)) (fun h => ?_) (fun span form => ?_) hn hs hc
  · rw [h.declaredNames]
  · rw [Hoist.declaredNames_surfaceForm]

namespace Hoist

variable {h : Hoist} {body : List Node}

theorem lists_iff : h.Lists x n ↔ (h.hoists n = true ∧ x ∈ n.form.declaredNames) ∨
    (searchesBelow n = true ∧ ∃ c ∈ n.children, h.Lists x c) :=
  Node.exists_mem_visited

theorem declaredNames_mark (n : Node) : (h.mark n).form.declaredNames = n.form.declaredNames := by
  obtain ⟨form, span⟩ := n
  rw [mark_mk]
  cases form with
  | definitions kind bs hoisted =>
    have hnames : (bs.map (Binding.map h.mark)).map (·.name) = bs.map (·.name) := by
      rw [List.map_map]
      rfl
    cases kind with
    | var => exact hnames
    | const => rfl
  | _ => rfl

/-- A declaration is marked if it had a mark or is hoisted. -/
theorem isMarked_mark (n : Node) :
    (h.mark n).form.isMarked = (n.form.isMarked || h.hoists n) := by
  obtain ⟨form, span⟩ := n
  rw [mark_mk]
  cases form <;> rfl

/-- Conditions have nothing to mark, so a rule drops the same parts of a marked form. -/
theorem kept_mark (hn : n.Fits false k) :
    (h.mark n).form.kept o (o.verdict? (h.mark n).form.enclosureKind) =
      (n.form.kept o (o.verdict? n.form.enclosureKind)).map h.mark := by
  obtain ⟨form, span⟩ := n
  have hmap : (form.map h.mark).kept o (o.verdict? form.enclosureKind) =
      (form.kept o (o.verdict? form.enclosureKind)).map h.mark := by
    refine Form.kept_map fun c hc => ?_
    rw [mark_eq (hn.part hc).condition.builtOf]
  rw [mark_mk]
  by_cases hs : searchesBelow ⟨form, span⟩ = true
  · simp only [if_pos hs, Node.form_mk, Form.kept_withHoisted, Form.enclosureKind_withHoisted,
      Form.enclosureKind_map, hmap]
  · cases form with
    | declaration | function => rfl
    | _ => exact absurd rfl hs

/-- Marking makes no name retained that was not. -/
theorem retains_of_mark (hn : n.Fits false k) (hx : (h.mark n).Retains o x) : n.Retains o x := by
  induction n using Node.induct generalizing k with
  | h n ih =>
    rw [Node.retains_iff, declaredNames_mark, kept_mark hn] at hx
    obtain ⟨-, hname⟩ | ⟨c, hc, hx⟩ := hx
    · exact .here hn.isMarked hname
    · obtain ⟨a, ha, rfl⟩ := List.mem_map.1 hc
      obtain ⟨-, hmem⟩ := Node.mem_children_of_kept ha
      obtain ⟨j, hfits⟩ := hn.of_mem_children hmem
      exact .part ha (ih a hmem hfits hx)

/-- A retained name whose declaration marking turns into a marked one is listed. -/
theorem retains_mark_or_lists (hn : n.Fits false k) (hx : n.Retains o x) :
    (h.mark n).Retains o x ∨ h.Lists x n := by
  induction n using Node.induct generalizing k with
  | h n ih =>
    rw [Node.retains_iff] at hx
    obtain ⟨-, hname⟩ | ⟨c, hc, hx⟩ := hx
    · by_cases hh : h.hoists n = true
      · exact .inr (lists_iff.2 (.inl ⟨hh, hname⟩))
      · refine .inl (.here ?_ ?_)
        · rw [isMarked_mark, hn.isMarked]
          simpa using hh
        · rwa [declaredNames_mark]
    · obtain ⟨hs, hmem⟩ := Node.mem_children_of_kept hc
      obtain ⟨j, hfits⟩ := hn.of_mem_children hmem
      obtain hmark | hlists := ih c hmem hfits hx
      · refine .inl (.part ?_ hmark)
        rw [kept_mark hn]
        exact List.mem_map_of_mem hc
      · exact .inr (lists_iff.2 (.inr ⟨hs, c, hmem, hlists⟩))

/-- What is hoisted is a function or the bindings of a `var`. -/
theorem hoists_iff : h.hoists n = true ∧ x ∈ n.form.declaredNames ↔
    (h.vars = true ∧ x ∈ (varsOf n).map (·.name)) ∨
      (h.functions = true ∧ isFunction n = true ∧ x ∈ n.form.declaredNames) := by
  obtain ⟨form, span⟩ := n
  cases form with
  | definitions kind bs hoisted =>
    cases kind <;> simp [hoists, varsOf, isFunction, Form.declaredNames]
  | declaration l => simp [hoists, varsOf, isFunction]
  | _ => simp [hoists, varsOf, isFunction]

/-- The `var` at the top of a scope binds the names of the hoisted variables. -/
theorem retains_declaration : (∃ a ∈ declaration (h.varsIn body) span, a.Retains o x) ↔
    h.vars = true ∧ ∃ n ∈ reach body, x ∈ (varsOf n).map (·.name) := by
  have hbare (bs : List (Binding Node)) :
      (∃ a ∈ declaration bs span, a.Retains o x) ↔ x ∈ bs.map (·.name) := by
    unfold declaration
    split
    · simp_all
    · simp only [List.mem_singleton, exists_eq_left]
      rw [Node.retains_iff]
      simp [Form.isMarked, Form.declaredNames, Form.kept, Form.children, Function.comp_def,
        List.filterMap_map]
  rw [hbare]
  by_cases hv : h.vars = true
  · rw [map_name_varsIn hv, namesIn, List.mem_eraseDups, List.map_flatMap, List.mem_flatMap,
      and_iff_right hv]
  · simp [varsIn, hv]

theorem retains_functionsIn (hb : ∀ n ∈ body, n.Fits false .statement) :
    (∃ a ∈ h.functionsIn body, a.Retains o x) ↔ h.functions = true ∧
      ∃ n ∈ reach body, isFunction n = true ∧ x ∈ n.form.declaredNames := by
  have hfunction {n : Node} (hn : n ∈ reach body) (hf : isFunction n = true) :
      n.Retains o x ↔ x ∈ n.form.declaredNames := by
    obtain ⟨a, ha, hn⟩ := List.mem_flatMap.1 hn
    obtain ⟨j, hj⟩ := (hb a ha).of_mem_visited hn
    have hm := hj.isMarked
    obtain ⟨form, span⟩ := n
    cases form with
    | declaration l =>
      rw [Node.retains_iff, and_iff_right hm]
      simp [Form.kept]
    | _ => cases hf
  by_cases hf : h.functions = true
  · rw [functionsIn, if_pos hf, and_iff_right hf]
    refine exists_congr fun n => ?_
    rw [List.mem_filter, and_assoc]
    refine and_congr_right fun hn => and_congr_right fun hisFunction => hfunction hn hisFunction
  · simp [functionsIn, hf]

/-- Listing the declarations of a scope at its top retains what is hoisted, besides what was
retained anyway. -/
theorem retains_surface (hb : ∀ n ∈ body, n.Fits false .statement) :
    (∃ a ∈ (h.surface none span body).1, a.Retains o x) ↔
      (∃ n ∈ body, h.Lists x n) ∨ ∃ n ∈ body, n.Retains o x := by
  have hlists : (∃ n ∈ body, h.Lists x n) ↔
      (∃ a ∈ declaration (h.varsIn body) span, a.Retains o x) ∨
        ∃ a ∈ h.functionsIn body, a.Retains o x := by
    have hreach : (∃ n ∈ body, h.Lists x n) ↔
        ∃ d ∈ reach body, h.hoists d = true ∧ x ∈ d.form.declaredNames :=
      exists_mem_flatMap.symm
    rw [hreach, retains_declaration, retains_functionsIn hb]
    simp only [hoists_iff]
    constructor
    · rintro ⟨d, hd, ⟨hv, hname⟩ | ⟨hf, hname⟩⟩
      · exact .inl ⟨hv, d, hd, hname⟩
      · exact .inr ⟨hf, d, hd, hname⟩
    · rintro (⟨hv, d, hd, hname⟩ | ⟨hf, d, hd, hname⟩)
      · exact ⟨d, hd, .inl ⟨hv, hname⟩⟩
      · exact ⟨d, hd, .inr ⟨hf, hname⟩⟩
  have hsplit : (∃ a ∈ (h.surface none span body).1, a.Retains o x) ↔
      (∃ n ∈ body, h.Lists x n) ∨ ∃ n ∈ body, (h.mark n).Retains o x := by
    rw [hlists]
    simp [surface, or_and_right, exists_or, or_assoc]
  rw [hsplit]
  constructor
  · rintro (hlists | ⟨n, hn, hx⟩)
    · exact .inl hlists
    · exact .inr ⟨n, hn, retains_of_mark (hb n hn) hx⟩
  · rintro (hlists | ⟨n, hn, hx⟩)
    · exact .inl hlists
    · obtain hmark | hlisted := retains_mark_or_lists (h := h) (hb n hn) hx
      · exact .inr ⟨n, hn, hmark⟩
      · exact .inl ⟨n, hn, hlisted⟩

end Hoist

/-- A name is declared in the reduced program if and only if one of its declarations was hoisted or
stands where no rule drops it. -/
theorem minify_declares_iff (o : Options) (hn : n.WellFormed) : ∃ m, (minify o n).result = .ok m ∧
    ∀ x, m.Declares x ↔ o.hoist.Lists x n ∨ n.Retains o x := by
  obtain ⟨form, span⟩ := n
  obtain ⟨body, rfl, hbody⟩ := hn
  have hgives (x : String) : Gives (fun _ => False) Setting.initial.Holds
      ((⟨.program body, span⟩ : Node).reduce o) fun m =>
        m.Declares x ↔ o.hoist.Lists x ⟨.program body, span⟩ ∨
          (⟨.program body, span⟩ : Node).Retains o x := by
    refine gives_reduce (R := fun j a m => m.Remains j ∧ (m.Declares x ↔ a.Retains o x)) rfl
      (fun c hc => hc.1) (fun j a ha => ?_) fun form' h => ?_
    · have hbelow := Category.below_of_mem_parts ha
      rw [Hoist.enclosureKind_surfaceForm] at hbelow
      have hfits : a.Fits true j := Hoist.fits_surfaceProgram hbody ha
      have hchild : (Setting.initial.child .other j.role).Holds [⟨.other, j.role⟩] :=
        Setting.holds_child ⟨[], Setting.holds_initial, rfl⟩
      exact (gives_declares hfits hbelow hchild).narrow fun _ => Setting.holds_child
    · have hremains := h.remains fun _ _ _ hab => hab.1
      refine ⟨Rule.tests_of_remains hremains, fun m hm => ?_⟩
      cases h with
      | @program _ body' h =>
        obtain rfl := hm
        have hbody' := h.declares_iff (fun _ _ hab => hab.1.fits (by decide)) fun _ _ hab => hab.2
        rw [Hoist.retains_surface hbody] at hbody'
        rw [Node.declares_mk rfl rfl, Hoist.lists_iff, Node.retains_iff]
        simpa [Hoist.hoists, Hoist.searchesBelow, Form.declaredNames, Form.kept, Form.children,
          Node.children] using hbody'
  obtain ⟨m, hm, hrun⟩ := Gives.ok_forall hgives "" [] Setting.holds_initial
  obtain ⟨ws, hrun⟩ := hrun [] Setting.holds_initial []
  exact ⟨m, congrArg Prod.fst hrun, hm⟩

/-- Of `if (null) var x; else var y;` one branch is dropped with its name and the other kept. -/
theorem minify_branch_declares_iff :
    let n := Build.program [Build.branch Build.null (Build.var [("x", none)])
      (some (Build.var [("y", none)]))]
    let o := Options.full.set .hoistVariables false
    n.WellFormed ∧ ∃ m, (minify o n).result = .ok m ∧ ∀ x, m.Declares x ↔ x = "y" := by
  intro n o
  have hn : n.WellFormed := by
    refine ⟨_, rfl, fun a ha => ?_⟩
    obtain rfl := List.mem_singleton.1 ha
    refine .branch (.leaf rfl rfl rfl) (.leaf rfl rfl rfl) fun a ha => ?_
    exact Option.some.inj ha ▸ .leaf rfl rfl rfl
  have hlists (x : String) : ¬o.hoist.Lists x n := by
    rintro ⟨d, hd, hhoists, -⟩
    have hvisited : n.visited Hoist.searchesBelow = [n, Build.branch Build.null
        (Build.var [("x", none)]) (some (Build.var [("y", none)])), Build.null,
        Build.var [("x", none)], Build.var [("y", none)]] := by
      simp [n, Node.visited_eq, Node.children, Form.children, Build.program, Build.branch,
        Build.null, Build.var, Form.node, Hoist.searchesBelow]
    rw [hvisited] at hd
    simp only [List.mem_cons, List.not_mem_nil, or_false] at hd
    obtain rfl | rfl | rfl | rfl | rfl := hd <;> cases hhoists
  have hretains (x : String) : n.Retains o x ↔ x = "y" := by
    have hvar : (Build.var [("y", none)]).Retains o x ↔ x = "y" := by
      rw [Node.retains_iff]
      simp [Build.var, Form.node, Form.isMarked, Form.declaredNames, Form.kept, Form.children]
    have hkept : (Build.branch Build.null (Build.var [("x", none)])
        (some (Build.var [("y", none)]))).form.kept o (o.verdict? .branch) =
          [Build.var [("y", none)]] := by
      cbv
    have hbranch : (Build.branch Build.null (Build.var [("x", none)])
        (some (Build.var [("y", none)]))).Retains o x ↔ x = "y" := by
      rw [Node.retains_iff, ← hvar]
      refine (or_iff_right fun h => List.not_mem_nil h.2).trans ?_
      change (∃ c ∈ Form.kept o (o.verdict? .branch) _, _) ↔ _
      rw [hkept]
      simp
    rw [Node.retains_iff]
    simp only [n, Build.program, Form.node, Node.form_mk, Form.declaredNames, Form.kept,
      Form.children, List.not_mem_nil, and_false, false_or, List.mem_singleton, exists_eq_left]
    exact hbranch
  obtain ⟨m, hm, hdeclares⟩ := minify_declares_iff o hn
  refine ⟨hn, m, hm, fun x => (hdeclares x).trans ?_⟩
  rw [hretains, or_iff_right (hlists x)]

/-- The name in `if (null) var x;` is lost. -/
theorem minify_branch_loses_name :
    let n := Build.program [Build.branch Build.null (Build.var [("x", none)]) none]
    let o := Options.full.set .hoistVariables false
    n.WellFormed ∧ n.Declares "x" ∧ ∃ m, (minify o n).result = .ok m ∧ ¬m.Declares "x" := by
  intro n o
  have hn : n.WellFormed := by
    refine ⟨_, rfl, fun a ha => ?_⟩
    obtain rfl := List.mem_singleton.1 ha
    refine .branch (.leaf rfl rfl rfl) (.leaf rfl rfl rfl) fun a ha => ?_
    cases ha
  have hdeclares : n.Declares "x" := by
    refine ⟨Build.var [("x", none)], ?_, List.mem_singleton_self _⟩
    simp [n, Node.visited_eq, Node.children, Form.children, Build.program, Build.branch,
      Build.null, Build.var, Form.node, Hoist.searchesBelow]
  have hresult : (minify o n).result = .ok (Build.program []) := by cbv
  refine ⟨hn, hdeclares, _, hresult, ?_⟩
  rintro ⟨d, hd, hname⟩
  rw [Node.visited_eq] at hd
  obtain rfl := List.mem_singleton.1 hd
  cases hname

end ScriptMinifier
