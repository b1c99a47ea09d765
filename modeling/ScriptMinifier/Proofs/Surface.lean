import ScriptMinifier.Proofs.NormalLists
import ScriptMinifier.Proofs.Walks

namespace ScriptMinifier

open Pass (Gives Inside)

variable {o : Options} {n : Node} {span : Span}

namespace Form

/-- A function declaration or a `var`. -/
def declares (form : Form Node) : Bool :=
  match form with
  | .declaration _ | .definitions .var _ _ => true
  | _ => false

/-- A search for declarations goes below the form. -/
def searched (form : Form Node) : Bool :=
  match form with
  | .declaration _ | .function _ => false
  | _ => true

/-- A declaration is marked, and no program stands within another. -/
def Hoisted (form : Form Node) : Prop :=
  (form.declares = true → form.isMarked = true) ∧ ∀ body, form ≠ .program body

end Form

/-- Nothing outside nested functions declares anything. -/
abbrev Node.Undeclaring : Node → Prop := Node.Throughout Form.searched (·.declares = false)

/-- All declarations outside nested functions are marked. -/
abbrev Node.Hoisted : Node → Prop := Node.Throughout Form.searched Form.Hoisted

theorem persists_undeclaring : Form.Persists Form.searched (·.declares = false) where
  simple {form} h := by cases form <;> first | exact ⟨rfl, rfl⟩ | cases h
  block := rfl
  bare {kind _ _} h := by cases kind <;> exact h
  search {n} h := by
    obtain ⟨form, span⟩ := n
    cases form <;> first | rfl | cases h

theorem persists_hoisted : Form.Persists Form.searched Form.Hoisted where
  simple {form} h := by
    have hdeclares : form.declares = false := (persists_undeclaring.simple h).2
    refine ⟨(persists_undeclaring.simple h).1, by simp [hdeclares], ?_⟩
    rintro body rfl
    cases h
  block := rfl
  bare {kind _ _} h := ⟨by cases kind <;> exact h.1, fun body hb => nomatch hb⟩
  search := persists_undeclaring.search

namespace Hoist

/-- No place takes a program. -/
theorem form_ne_program {k : Category} (hn : n.Fits true k) (body : List Node) :
    n.form ≠ .program body := by
  obtain ⟨form, span⟩ := n
  rintro rfl
  have hadmits := hn.admits
  cases k <;> cases hadmits

/-- Marking a statement leaves no declaration outside nested functions unmarked. -/
theorem hoisted_mark {h : Hoist} (hf : h.functions = true) (hv : h.vars = true) {k : Category}
    (hn : n.Fits true k) : (h.mark n).Hoisted := by
  induction n using Node.induct generalizing k with
  | h n ih =>
    obtain ⟨form, span⟩ := n
    have hprogram := form_ne_program hn
    rw [mark_mk]
    change (⟨(if form.searched then form.map h.mark else form).withHoisted
      (form.isHoisted || h.hoists ⟨form, span⟩), span⟩ : Node).Hoisted
    refine Node.throughout_iff.2 ⟨⟨?_, fun body hb => ?_⟩, fun hs c hc => ?_⟩
    · cases form with
      | declaration l => simp [Form.searched, Form.withHoisted, Form.isMarked, hoists, hf]
      | definitions kind bs hoisted =>
        cases kind with
        | var => simp [Form.searched, Form.map, Form.withHoisted, Form.isMarked, hoists, hv]
        | const =>
          intro h
          cases h
      | _ =>
        intro h
        cases h
    · cases form with
      | program body => exact hprogram body rfl
      | _ => cases hb
    · have hsearched : form.searched = true := by
        cases form <;> first | rfl | cases hs
      rw [if_pos hsearched, Form.children_withHoisted, Form.children_map] at hc
      obtain ⟨a, ha, rfl⟩ := List.mem_map.1 hc
      obtain ⟨j, hj⟩ := Form.exists_part ha
      exact ih a ha (hn.part hj)

end Hoist

/-- Where every declaration is marked, reducing takes them all out. -/
theorem gives_undeclaring (n : Node) (hn : n.Hoisted) (s : Setting) :
    Gives (fun _ => True) s.Holds (n.reduce o) Node.Undeclaring := by
  induction n using Node.reduceInduct o generalizing s with
  | unmarked form span hm ihParts =>
    obtain ⟨⟨hmarked, hprogram⟩, hchildren⟩ := Node.throughout_iff.1 hn
    by_cases hs : form.searched = true
    · have hsurface : o.hoist.surfaceForm span form = form := by
        cases form with
        | program body => exact absurd rfl (hprogram body)
        | declaration l | function l => cases hs
        | _ => rfl
      have hdeclares : form.declares = false := by
        by_contra hd
        rw [hmarked (by simpa using hd)] at hm
        cases hm
      refine gives_reduce (R := fun _ _ m => m.Undeclaring) hm (fun c hc => hc.1)
        (fun k a ha => ?_) fun form' h => ⟨Rule.tests_any form', fun m hm' => ?_⟩
      · have hpart : (k, a) ∈ form.parts := hsurface ▸ ha
        have hhoisted := hchildren hs a (Form.mem_children_of_parts hpart)
        exact (ihParts k a ha hhoisted _).narrow fun _ => Setting.holds_child
      · rw [hsurface] at h
        have hparts := h.throughout (persists_undeclaring.sustains o) fun _ _ _ h => h
        have hform' : form'.declares = false := by
          cases h with
          | @definitions kind => cases kind <;> exact hdeclares
          | _ => exact hdeclares
        exact Rule.throughout_simplified persists_undeclaring (fun _ => hform')
          (fun _ => hparts) hm'
    · -- a nested function does not count, whatever it holds
      refine gives_reduce (R := fun _ _ _ => True) hm (fun c hc => hc.1)
        (fun k a _ => (gives_reduce_any a _).narrow fun _ => Setting.holds_child)
        fun form' h => ⟨Rule.tests_any form', fun m hm' => ?_⟩
      cases form with
      | declaration l => exact absurd (hmarked rfl) (by simp [hm])
      | function l =>
        cases h with
        | function h =>
          obtain rfl := hm'
          exact Node.throughout_iff.2 ⟨rfl, fun h => nomatch h⟩
      | _ => exact absurd rfl hs
  | declaration l span hl => exact (persists_undeclaring.sustains o).gives_declaration hl
  | definitions kind bs span ihAssignments =>
    have hvalues : ∀ b ∈ bs, ∀ v ∈ b.value, v.Hoisted := by
      intro b hb v hv
      exact (Node.throughout_iff.1 hn).2 rfl v (List.mem_filterMap.2 ⟨b, hb, hv⟩)
    refine (persists_undeclaring.sustains o).gives_definitions fun a ha => ?_
    exact ihAssignments a ha ((persists_hoisted.sustains o).assigned hvalues ha) _

namespace Statements

variable {ds ns : List Node}

theorem flatten_append (hd : ∀ d ∈ ds, d.isBareDeclaration = true) :
    flatten (ds ++ ns) = ds ++ flatten ns := by
  induction ds with
  | nil => rfl
  | cons d ds ih =>
    obtain ⟨hhead, htail⟩ := List.forall_mem_cons.1 hd
    have hrest := ih htail
    obtain ⟨form, span⟩ := d
    cases form with
    | block | empty => cases hhead
    | _ => exact congrArg _ hrest

theorem pruned_append (hd : ∀ d ∈ ds, d.isBareDeclaration = true) :
    pruned (ds ++ ns) = ds ++ pruned ns := by
  induction ds with
  | nil => rfl
  | cons d ds ih =>
    obtain ⟨hhead, htail⟩ := List.forall_mem_cons.1 hd
    have hjump : d.isJump = false := by
      obtain ⟨form, span⟩ := d
      cases form <;> first | rfl | cases hhead
    rw [List.cons_append, pruned, hjump, ih htail]
    rfl

theorem joinRuns_append (hd : ∀ d ∈ ds, d.isBareDeclaration = true) :
    joinRuns (ds ++ ns) = ds ++ joinRuns ns := by
  induction ds with
  | nil => rfl
  | cons d ds ih =>
    obtain ⟨hhead, htail⟩ := List.forall_mem_cons.1 hd
    have hrest := ih htail
    obtain ⟨form, span⟩ := d
    cases form with
    | expression => cases hhead
    | _ => rw [List.cons_append, joinRuns, hrest] <;> simp

/-- Tidying a list leaves the declarations alone with which it begins. -/
theorem tidied_append (hd : ∀ d ∈ ds, d.isBareDeclaration = true) {Q : Node → Prop}
    (hQ : Stable Q) (hns : ∀ n ∈ ns, Q n) :
    ∃ rest, tidied o (ds ++ ns) = ds ++ rest ∧ ∀ n ∈ rest, Q n := by
  have hjoin {ms : List Node} (hms : ∀ n ∈ ms, Q n) :
      ∃ rest, join (ds ++ ms) = ds ++ rest ∧ ∀ n ∈ rest, Q n := by
    cases ds with
    | nil => exact ⟨join ms, rfl, hQ.join hms⟩
    | cons d ds =>
      refine ⟨joinRuns ms, ?_, hQ.joinRuns hms⟩
      have hhead := hd d List.mem_cons_self
      rw [join, joinRuns_append hd]
      obtain ⟨form, span⟩ := d
      cases form with
      | expression => cases hhead
      | _ => rfl
  have hflat : ∀ n ∈ flatten ns, Q n := hQ.flatten hns
  have hpruned : ∀ n ∈ pruned (flatten ns), Q n := hQ.pruned hflat
  unfold tidied
  rw [flatten_append hd, pruned_append hd]
  split <;> split
  · exact hjoin hpruned
  · exact ⟨_, rfl, hpruned⟩
  · exact hjoin hflat
  · exact ⟨_, rfl, hflat⟩

end Statements

namespace Hoist

variable {h : Hoist} {body : List Node} {params names : List String} {bs : List (Binding Node)}

/-- The names that `var` binds in a scope, in the order of first occurrence. -/
def namesIn (body : List Node) : List String :=
  (((reach body).flatMap varsOf).map (·.name)).eraseDups

theorem extend_cons (x : String) : extend params (x :: names) =
    extend (if x ∈ params then params else params ++ [x]) names := by
  simp [extend]

/-- A parameter list is extended by the names that it does not have, each once. -/
theorem extend_eq :
    extend params names = params ++ (names.filter (· ∉ params)).eraseDups := by
  induction names generalizing params with
  | nil => simp [extend]
  | cons x names ih =>
    rw [extend_cons]
    by_cases hx : x ∈ params
    · simp [ih, hx]
    · have hfilter : names.filter (fun y => decide (y ∉ params ++ [x])) =
          (names.filter fun y => decide (y ∉ params)).filter fun y => !y == x := by
        rw [List.filter_filter]
        refine List.filter_congr fun y _ => ?_
        simp [not_or, and_comm, beq_eq_decide]
      rw [if_neg hx, ih, hfilter, List.filter_cons_of_pos (by simpa using hx),
        List.eraseDups_cons, List.append_assoc, List.singleton_append]

theorem nodup_extend (hp : params.Nodup) : (extend params names).Nodup := by
  induction names generalizing params with
  | nil => exact hp
  | cons x names ih =>
    rw [extend_cons]
    refine ih ?_
    by_cases hx : x ∈ params
    · rwa [if_pos hx]
    · rw [if_neg hx]
      exact List.nodup_append.2 ⟨hp, List.pairwise_singleton _ _, by grind⟩

theorem extend_nil : extend [] names = names.eraseDups := by
  simp [extend_eq]

theorem nodup_namesIn : (namesIn body).Nodup := by
  rw [namesIn, ← extend_nil]
  exact nodup_extend List.nodup_nil

theorem eraseDups_of_nodup (hn : names.Nodup) : names.eraseDups = names := by
  induction names with
  | nil => rfl
  | cons x names ih =>
    obtain ⟨hx, hn⟩ := List.nodup_cons.1 hn
    have hfilter : names.filter (fun y => !y == x) = names := by
      refine List.filter_eq_self.2 fun y hy => ?_
      have hne : y ≠ x := ne_of_mem_of_not_mem hy hx
      simpa using hne
    rw [List.eraseDups_cons, hfilter, ih hn]

theorem extend_namesIn :
    extend params (namesIn body) = params ++ (namesIn body).filter (· ∉ params) := by
  rw [extend_eq, eraseDups_of_nodup (nodup_namesIn.filter _)]

theorem map_name_insert (b : Binding Node) : (insert bs b).map (·.name) =
    extend (bs.map (·.name)) [b.name] := by
  induction bs with
  | nil => rfl
  | cons c cs ih =>
    rw [insert]
    by_cases hc : c.name = b.name
    · simp [hc, extend]
    · have hne : ¬b.name = c.name := fun h => hc h.symm
      rw [if_neg hc, List.map_cons, ih]
      simp only [extend, List.foldl_cons, List.foldl_nil, List.map_cons, List.contains_cons]
      split <;> simp_all

theorem map_name_foldl (cs : List (Binding Node)) :
    (cs.foldl insert bs).map (·.name) = extend (bs.map (·.name)) (cs.map (·.name)) := by
  induction cs generalizing bs with
  | nil => rfl
  | cons c cs ih =>
    rw [List.foldl_cons, ih, map_name_insert]
    rfl

theorem map_name_varsIn (hv : h.vars = true) : (h.varsIn body).map (·.name) = namesIn body := by
  rw [varsIn, if_pos hv, distinct, map_name_foldl, List.map_nil, extend_nil, namesIn]

/-- Among the ways from a scope are those that enter no function. The nodes are what stands at their
ends: each of these ways leads to one of them, and they are in the order of the source. -/
def Reaches (scope : Node) (nodes : List Node) : Prop :=
  ∃ ways : List Way, ways.map scope.find? = nodes.map some ∧ ways.Nodup ∧
    ways.Pairwise scope.Before ∧
    ∀ p, p ∈ ways ↔ p ≠ [] ∧ (scope.find? p).isSome = true ∧
      ∀ q, q <+: p → q ≠ p → (scope.find? q).any searchesBelow = true

theorem reaches_reach (body : List Node) (span : Span) :
    Reaches ⟨.program body, span⟩ (reach body) := by
  have hways : (⟨.program body, span⟩ : Node).ways searchesBelow =
      [] :: Node.waysInto (.program body) (Node.ways searchesBelow) := Node.ways_eq ..
  have hvisited : (⟨.program body, span⟩ : Node).visited searchesBelow =
      ⟨.program body, span⟩ :: reach body := Node.visited_eq ..
  have hends := Node.map_find?_ways searchesBelow ⟨.program body, span⟩
  have hordered := Node.pairwise_ways searchesBelow ⟨.program body, span⟩
  have hnodup := Node.nodup_of_pairwise hordered
  rw [hways, hvisited] at hends
  rw [hways] at hordered hnodup
  refine ⟨_, (List.cons.inj hends).2, hnodup.of_cons, hordered.of_cons, fun p => ?_⟩
  rw [← Node.mem_ways_iff, hways, List.mem_cons]
  constructor
  · intro hp
    refine ⟨?_, .inr hp⟩
    rintro rfl
    exact hnodup.notMem hp
  · rintro ⟨hne, hp⟩
    exact hp.resolve_left hne

/-- The list is one `var` for `names`, without initializers, or nothing if there are none. -/
def Declares (names : List String) (span : Span) (ns : List Node) : Prop :=
  (names = [] ∧ ns = []) ∨ names ≠ [] ∧ ∃ bs, ns = [⟨.definitions .var bs false, span⟩] ∧
    bs.map (·.name) = names ∧ ∀ b ∈ bs, b.value = none

theorem declares_declaration (hv : h.vars = true) :
    Declares (namesIn body) span (declaration (h.varsIn body) span) := by
  rw [← map_name_varsIn hv, declaration]
  cases h.varsIn body with
  | nil => exact .inl ⟨rfl, rfl⟩
  | cons b bs =>
    refine .inr ⟨List.cons_ne_nil _ _, _, rfl, ?_, ?_⟩
    · simp [Binding.bare]
    · simp

/-- In a context, whatever warnings came before, `n` is reduced to `m`. -/
def ReducesTo (o : Options) (context : Context) (n m : Node) : Prop :=
  ∀ ws, ((n.reduce o).run ⟨context, ws⟩).1 = .ok m

/-- What becomes of the body of a scope in a context: it declares `names`, goes on with its reduced
functions, and declares nothing further outside nested functions. -/
def Surfaced (o : Options) (context : Context) (names : List String) (span : Span)
    (body body' : List Node) : Prop :=
  ∃ vars functions rest, body' = vars ++ functions ++ rest ∧ Declares names span vars ∧
    List.Forall₂ (ReducesTo o context) ((reach body).filter isFunction) functions ∧
    ∀ n ∈ reach rest, n.form.declares = false

end Hoist

/-- The names that a function declares by a `var`: those that it cannot take for parameters. -/
def Lambda.varNames (l : Lambda Node) : List String :=
  if l.usesArguments then Hoist.namesIn l.body else []

/-- The parameters of a function that takes its names for further ones. -/
def Lambda.extendedParams (l : Lambda Node) : List String :=
  if l.usesArguments then l.params
  else l.params ++ (Hoist.namesIn l.body).filter (· ∉ l.params)

/-- What becomes of a form that opens a scope. -/
inductive Form.Surfaced (o : Options) (context : Context) (span : Span) :
    Form Node → Form Node → Prop
  | program {body body' : List Node} :
    Hoist.Surfaced o context (Hoist.namesIn body) span body body' →
    Surfaced o context span (.program body) (.program body')
  | declaration {l : Lambda Node} {body' : List Node} :
    Hoist.Surfaced o context l.varNames span l.body body' →
    Surfaced o context span (.declaration l)
      (.declaration { l with params := l.extendedParams, body := body' })
  | function {l : Lambda Node} {body' : List Node} :
    Hoist.Surfaced o context l.varNames span l.body body' →
    Surfaced o context span (.function l)
      (.function { l with params := l.extendedParams, body := body' })

/-- A declaration without initializers stays as it is. -/
theorem gives_reduce_bare {kind : DeclarationKind} {bs : List (Binding Node)}
    (hbs : ∀ b ∈ bs, b.value = none) (s : Setting) :
    Gives (fun _ => True) s.Holds ((⟨.definitions kind bs false, span⟩ : Node).reduce o)
      (· = ⟨.definitions kind bs false, span⟩) := by
  refine gives_reduce (R := fun _ _ _ => True) rfl (fun c hc => hc.1)
    (fun k a _ => (gives_reduce_any a _).narrow fun _ => Setting.holds_child)
    fun form' h => ⟨Rule.tests_any form', fun m hm => ?_⟩
  cases h with
  | @definitions _ _ bs' _ h =>
    obtain rfl := hm
    have hsame : bs = bs' := by
      induction h with
      | nil => rfl
      | cons hb _ ih =>
        obtain ⟨hvalue, hbs⟩ := List.forall_mem_cons.1 hbs
        cases hb with
        | mk value h =>
          rw [hvalue] at h
          cases h
          rw [← ih hbs, ← hvalue]
    rw [hsame]

/-- A function declaration that is not marked stays one. -/
theorem gives_reduce_unmarked {l : Lambda Node} (hl : l.hoisted = false) (s : Setting) :
    Gives (fun _ => True) s.Holds ((⟨.declaration l, span⟩ : Node).reduce o)
      fun m => m.isBareDeclaration = true := by
  refine gives_reduce (R := fun _ _ _ => True) hl (fun c hc => hc.1)
    (fun k a _ => (gives_reduce_any a _).narrow fun _ => Setting.holds_child)
    fun form' h => ⟨Rule.tests_any form', fun m hm => ?_⟩
  cases h with
  | declaration h =>
    obtain rfl := hm
    rfl

namespace Hoist

variable {h : Hoist} {body body' : List Node} {c : Context}

/-- The new `var` of a scope stays as it is. -/
theorem Declares.reduced {names : List String} {vars vars' : List Node}
    (h : Declares names span vars) (hv : List.Forall₂ (ReducesTo o c) vars vars') :
    vars' = vars := by
  obtain ⟨-, rfl⟩ | ⟨-, bs, rfl, -, hbare⟩ := h
  · cases hv with
    | nil => rfl
  · cases hv with
    | cons hd hnil =>
      cases hnil with
      | nil =>
        have hsame := (gives_reduce_bare hbare _).of_run (Setting.holds_of c) (hd [])
        rw [hsame]

theorem Declares.bare {names : List String} {vars : List Node} (h : Declares names span vars) :
    ∀ d ∈ vars, d.isBareDeclaration = true := by
  obtain ⟨-, rfl⟩ | ⟨-, bs, rfl, -, hbare⟩ := h
  · exact fun d hd => absurd hd List.not_mem_nil
  · intro d hd
    obtain rfl := List.mem_singleton.1 hd
    simpa [Node.isBareDeclaration] using hbare

/-- No function of a scope is marked, so what it is reduced to is a declaration again. -/
theorem bare_of_reduced {functions : List Node} (hbody : ∀ n ∈ body, n.Fits false .statement)
    (hreduced : List.Forall₂ (ReducesTo o c) ((reach body).filter isFunction) functions) :
    ∀ d ∈ functions, d.isBareDeclaration = true := by
  intro d' hd'
  obtain ⟨d, hd, hdd'⟩ := exists_of_forall₂ hreduced hd'
  obtain ⟨hreach, hfunction⟩ := List.mem_filter.1 hd
  obtain ⟨n, hn, hdn⟩ := List.mem_flatMap.1 hreach
  obtain ⟨k, hk⟩ := (hbody n hn).of_mem_visited hdn
  obtain ⟨form, span⟩ := d
  cases form with
  | declaration l =>
    have hl : l.hoisted = false := by simpa [Form.mayCarry, Form.isHoisted] using hk.mayCarry
    exact (gives_reduce_unmarked hl _).of_run (Setting.holds_of c) (hdd' [])
  | _ => cases hfunction

/-- What is left of the body of a scope declares nothing. -/
theorem undeclaring_of_reduced {rest : List Node} (hf : h.functions = true) (hv : h.vars = true)
    (hbody : ∀ n ∈ body, n.Fits false .statement)
    (hreduced : List.Forall₂ (ReducesTo o c) (body.map h.mark) rest) :
    ∀ n ∈ rest, n.Undeclaring := by
  intro m hm
  obtain ⟨a, ha, ham⟩ := exists_of_forall₂ hreduced hm
  obtain ⟨n, hn, rfl⟩ := List.mem_map.1 ha
  have hhoisted := hoisted_mark hf hv (hbody n hn).of_unmarked
  exact (gives_undeclaring _ hhoisted _).of_run (Setting.holds_of c) (ham [])

/-- Tidying the reduced statements of a scope leaves its declarations at the top. -/
theorem surfaced_tidied (hf : h.functions = true) (hv : h.vars = true)
    (hbody : ∀ n ∈ body, n.Fits false .statement) {vars : List Node} {names : List String}
    (hvars : Declares names span vars)
    (hb : Statements.Tidied o (ReducesTo o c)
      (vars ++ (h.functionsIn body ++ body.map h.mark)) body') :
    Surfaced o c names span body body' := by
  obtain ⟨ms, hms, rfl⟩ := hb
  rw [functionsIn, if_pos hf] at hms
  obtain ⟨vars', ms, rfl, hvars', hms⟩ := exists_append_of_forall₂ hms
  obtain ⟨functions, rest, rfl, hfunctions, hrest⟩ := exists_append_of_forall₂ hms
  obtain rfl := hvars.reduced hvars'
  have hdeclarations : ∀ d ∈ vars' ++ functions, d.isBareDeclaration = true :=
    List.forall_mem_append.2 ⟨hvars.bare, bare_of_reduced hbody hfunctions⟩
  obtain ⟨rest', htidied, hundeclaring⟩ := Statements.tidied_append (o := o) hdeclarations
    (persists_undeclaring.sustains o).stable (undeclaring_of_reduced hf hv hbody hrest)
  refine ⟨vars', functions, rest', by rw [← htidied, List.append_assoc], hvars, hfunctions, ?_⟩
  intro n hn
  obtain ⟨m, hm, hnm⟩ := List.mem_flatMap.1 hn
  exact hundeclaring m hm n hnm

end Hoist

/-- All that stands in a well-formed tree holds unmarked parts that fit. -/
theorem parts_fit {t : Node} (ht : t.WellFormed ∨ ∃ k, t.Fits false k)
    (hn : n ∈ t.visited fun _ => true) :
    n.form.isMarked = false ∧ ∀ k a, (k, a) ∈ n.form.parts → a.Fits false k := by
  have hfits (hn : ∃ k, n.Fits false k) :
      n.form.isMarked = false ∧ ∀ k a, (k, a) ∈ n.form.parts → a.Fits false k := by
    obtain ⟨k, hk⟩ := hn
    obtain ⟨form, span⟩ := n
    exact ⟨hk.isMarked, fun j a ha => hk.part ha⟩
  rcases ht with ht | ⟨k, hk⟩
  · obtain ⟨form, span⟩ := t
    obtain ⟨body, rfl, hbody⟩ := ht
    rw [Node.visited_eq] at hn
    rcases List.mem_cons.1 hn with rfl | hn
    · refine ⟨rfl, fun k a ha => ?_⟩
      obtain ⟨a, ha, hka⟩ := List.mem_map.1 ha
      cases hka
      exact hbody a ha
    · obtain ⟨c, hc, hn⟩ := List.mem_flatMap.1 hn
      exact hfits ((hbody c hc).of_mem_visited hn)
  · exact hfits (hk.of_mem_visited hn)

namespace Hoist

variable {body : List Node} {c : Context}

/-- The body of a function, whether its names become parameters or are declared. -/
theorem surfaced_lambda {h : Hoist} (hf : h.functions = true) (hv : h.vars = true)
    {l : Lambda Node} (hbody : ∀ n ∈ l.body, n.Fits false .statement)
    (hb : Statements.Tidied o (ReducesTo o c) (h.surfaceLambda span l).body body) :
    Surfaced o c l.varNames span l.body body ∧
      (h.surfaceLambda span l).params = l.extendedParams := by
  obtain ⟨name, params, old, usesArguments, hoisted⟩ := l
  cases usesArguments with
  | true => exact ⟨surfaced_tidied hf hv hbody (declares_declaration hv) hb, rfl⟩
  | false =>
    refine ⟨surfaced_tidied hf hv hbody (.inl ⟨rfl, rfl⟩) hb, ?_⟩
    change extend params ((h.varsIn old).map (·.name)) = params ++ (namesIn old).filter (· ∉ params)
    rw [map_name_varsIn hv, extend_namesIn]

end Hoist

/-- What a scope of a well-formed tree is reduced to, in whatever context: hoisting lists its
declarations at the top, and none is lost or left behind. They are those that the scope reaches by
the ways that enter no function, once each in source order. -/
theorem reduce_surfaces (hf : o.on .hoistFunctions = true) (hv : o.on .hoistVariables = true)
    {t : Node} (ht : t.WellFormed ∨ ∃ k, t.Fits false k) (hn : n ∈ t.visited fun _ => true)
    (hscope : n.opensScope = true) (s : Session) :
    ∃ form', ((n.reduce o).run s).1 = .ok ⟨form', n.span⟩ ∧
      n.form.Surfaced o (⟨.other, .other⟩ :: s.context) n.span form' ∧
      ∀ body ∈ n.form.body?, Hoist.Reaches ⟨.program body, n.span⟩ (Hoist.reach body) := by
  obtain ⟨hmarked, hparts⟩ := parts_fit ht hn
  obtain ⟨form, span⟩ := n
  have hother : form.enclosureKind = .other := by
    cases form <;> first | rfl | cases hscope
  have hgives : Gives (fun _ => False) (· = s.context) ((⟨form, span⟩ : Node).reduce o) fun m =>
      ∃ form', m = ⟨form', span⟩ ∧ form.Surfaced o (⟨.other, .other⟩ :: s.context) span form' := by
    refine gives_reduce (R := fun _ => Hoist.ReducesTo o (⟨.other, .other⟩ :: s.context)) hmarked
      (fun c hc => congrArg Context.testsTruth hc) (fun k a ha => ?_) fun form' h => ?_
    · obtain rfl : k = .statement := by
        cases form <;> simp_all [Hoist.surfaceForm, Form.parts, Node.opensScope, Form.opensScope]
      have hfits := Hoist.fits_surfaceForm (fun j a ha => (hparts j a ha).of_unmarked) _ a ha
      have hcontext (c : Context)
          (hc : Inside form.enclosureKind Role.other (· = s.context) c) :
          c = ⟨.other, .other⟩ :: s.context := by
        obtain ⟨_, rfl, rfl⟩ := hc
        rw [hother]
      have hremains : Gives (fun _ => False) (· = ⟨.other, .other⟩ :: s.context) (a.reduce o)
          (Node.Remains .statement) := by
        have hbelow : Category.statement.Below (some ⟨.other, .other⟩) := by
          intro e he
          cases he
        refine (gives_remains (s := ⟨false, some ⟨.other, .other⟩⟩) hfits hbelow).narrow ?_
        rintro _ rfl
        exact ⟨rfl, rfl⟩
      have hresult := (hremains.narrow hcontext).result (⟨.other, .other⟩ :: s.context)
        ⟨s.context, rfl, by rw [hother]⟩
      exact hresult.mono fun m hm => hm.2
    · cases form with
      | program body =>
        cases h with
        | program h =>
          refine ⟨trivial, fun m hm => ?_⟩
          obtain rfl := hm
          refine ⟨_, rfl, .program ?_⟩
          exact Hoist.surfaced_tidied hf hv (fun n hn => hparts _ _ (List.mem_map_of_mem hn))
            (Hoist.declares_declaration hv) h
      | declaration l =>
        cases h with
        | declaration h =>
          refine ⟨trivial, fun m hm => ?_⟩
          obtain rfl := hm
          obtain ⟨hsurfaced, hparams⟩ := Hoist.surfaced_lambda hf hv
            (fun n hn => hparts _ _ (List.mem_map_of_mem hn)) h
          rw [hparams]
          exact ⟨_, rfl, .declaration hsurfaced⟩
      | function l =>
        cases h with
        | function h =>
          refine ⟨trivial, fun m hm => ?_⟩
          obtain rfl := hm
          obtain ⟨hsurfaced, hparams⟩ := Hoist.surfaced_lambda hf hv
            (fun n hn => hparts _ _ (List.mem_map_of_mem hn)) h
          rw [hparams]
          exact ⟨_, rfl, .function hsurfaced⟩
      | _ => cases hscope
  obtain ⟨m, ⟨form', rfl, hform'⟩, hrun⟩ := hgives.ok
  obtain ⟨ws, hrun⟩ := hrun s.context rfl s.warnings
  exact ⟨form', congrArg Prod.fst hrun, hform', fun body _ => Hoist.reaches_reach body span⟩

/-- `function f(p){if(a)var x=b,p;function g(){}}` becomes `function f(p,x){function g(){}a&&(x=b)}`:
`p` is a parameter already. -/
theorem reduce_function_surfaces :
    let n := Build.declaration "f" ["p"] [Build.branch (Build.identifier "a")
      (Build.var [("x", some (Build.identifier "b")), ("p", none)]) none,
      Build.declaration "g" [] []]
    let m := Build.declaration "f" ["p", "x"] [Build.declaration "g" [] [],
      Build.statement (Build.binary .and (Build.identifier "a")
        (Build.assign (Build.identifier "x") (Build.identifier "b")))]
    ((n.reduce .full).run .initial).1 = .ok m ∧
      n.form.Surfaced .full [⟨.other, .other⟩] n.span m.form := by
  intro n m
  have hvar : (Build.var [("x", some (Build.identifier "b")), ("p", none)]).Fits false
      .statement := by
    refine .mk rfl rfl fun j a ha => ?_
    obtain ⟨rfl, rfl⟩ : j = .expression ∧ a = Build.identifier "b" := by
      simpa [Form.parts] using ha
    exact .leaf rfl rfl rfl
  have hn : n.Fits false .statement := by
    refine .mk rfl rfl fun j a ha => ?_
    simp only [Form.parts, List.map_cons, List.map_nil, List.mem_cons, Prod.mk.injEq,
      List.not_mem_nil, or_false] at ha
    obtain ⟨rfl, rfl⟩ | ⟨rfl, rfl⟩ := ha
    · refine .branch (.leaf rfl rfl rfl) hvar fun a ha => ?_
      cases ha
    · exact .leaf rfl rfl rfl
  have hself : n ∈ n.visited fun _ => true := by
    rw [Node.visited_eq]
    exact List.mem_cons_self
  have hrun : ((n.reduce .full).run .initial).1 = .ok m := by cbv
  obtain ⟨form', hrun', hsurfaced, -⟩ :=
    reduce_surfaces (o := .full) rfl rfl (.inr ⟨_, hn⟩) hself rfl .initial
  have hform : form' = m.form := congrArg Node.form (Except.ok.inj (hrun'.symm.trans hrun))
  rw [hform] at hsurfaced
  exact ⟨hrun, hsurfaced⟩

end ScriptMinifier
