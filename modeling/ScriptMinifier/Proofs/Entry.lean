import ScriptMinifier.Proofs.Accessors
import ScriptMinifier.Proofs.Declared

namespace ScriptMinifier

open Pass (Gives)

variable {V : Type} {undefined : V} {o : Options} {x : String} {ps qs : List String} {args : List V}
  {l l' : Lambda Node} {n m : Node} {k : Category} {span : Span}

/-- What a call binds a name to as a parameter: the argument at its index, and the last such
argument for a parameter that is repeated. -/
def bound? (undefined : V) : List String → List V → String → Option V
  | [], _, _ => none
  | p :: ps, args, x =>
    (bound? undefined ps args.tail x).or (if p = x then some (args.headD undefined) else none)

/-- What a call binds a name to when it enters the body, if the function binds the name at all. -/
def Lambda.entry (undefined : V) (l : Lambda Node) (args : List V) (x : String) : Option V :=
  (bound? undefined l.params args x).or (if x ∈ Hoist.namesIn l.body then some undefined else none)

theorem bound?_append : bound? undefined (ps ++ qs) args x =
    (bound? undefined qs (args.drop ps.length) x).or (bound? undefined ps args x) := by
  induction ps generalizing args with
  | nil => simp [bound?]
  | cons p ps ih =>
    have hdrop : args.drop (p :: ps).length = args.tail.drop ps.length := by
      rw [List.length_cons, List.drop_tail]
    rw [List.cons_append, bound?, ih, bound?, hdrop, Option.or_assoc]

theorem bound?_eq_none_iff : bound? undefined ps args x = none ↔ x ∉ ps := by
  induction ps generalizing args with
  | nil => simp [bound?]
  | cons p ps ih =>
    rw [bound?, Option.or_eq_none_iff, ih, List.mem_cons, not_or, and_comm]
    simp [eq_comm]

theorem exists_bound? (undefined : V) (args : List V) (hx : x ∈ ps) :
    ∃ v, bound? undefined ps args x = some v :=
  Option.ne_none_iff_exists'.1 fun h => bound?_eq_none_iff.1 h hx

/-- Where no parameter is repeated, each is bound to the argument at its index. -/
theorem bound?_getElem (hn : ps.Nodup) {i : Nat} (hi : i < ps.length) :
    bound? undefined ps args ps[i] = some (args.getD i undefined) := by
  induction ps generalizing args i with
  | nil => exact absurd hi (Nat.not_lt_zero _)
  | cons p ps ih =>
    obtain ⟨hp, hn⟩ := List.nodup_cons.1 hn
    cases i with
    | zero =>
      rw [List.getElem_cons_zero, bound?, bound?_eq_none_iff.2 hp, Option.none_or, if_pos rfl]
      cases args <;> rfl
    | succ i =>
      have hi' : i < ps.length := Nat.lt_of_succ_lt_succ hi
      rw [List.getElem_cons_succ, bound?, ih hn hi']
      cases args <;> simp

theorem Lambda.entry_of_mem_params (hx : x ∈ l.params) :
    l.entry undefined args x = bound? undefined l.params args x := by
  obtain ⟨v, hv⟩ := exists_bound? undefined args hx
  rw [entry, hv, Option.some_or]

theorem Lambda.entry_of_mem_namesIn (hp : x ∉ l.params) (hx : x ∈ Hoist.namesIn l.body) :
    l.entry undefined args x = some undefined := by
  rw [entry, bound?_eq_none_iff.2 hp, Option.none_or, if_pos hx]

section Params

variable (hl : l'.params = l.params ++ l.addedParams o)

include hl

theorem Lambda.entry_param (hx : x ∈ l.params) :
    l'.entry undefined args x = l.entry undefined args x := by
  have hadded : x ∉ l.addedParams o := by
    intro h
    unfold addedParams at h
    split at h
    · simp [hx] at h
    · cases h
  rw [entry_of_mem_params (hl ▸ List.mem_append_left _ hx), entry_of_mem_params hx, hl,
    bound?_append, bound?_eq_none_iff.2 hadded, Option.none_or]

theorem Lambda.entry_addedParam {i : Nat} (hi : i < (l.addedParams o).length) :
    l'.entry undefined args (l.addedParams o)[i] =
      some (args.getD (l.params.length + i) undefined) := by
  have hnodup : (l.addedParams o).Nodup := by
    unfold addedParams
    split
    · exact Hoist.nodup_namesIn.filter _
    · exact List.nodup_nil
  have hmem : (l.addedParams o)[i] ∈ l'.params :=
    hl ▸ List.mem_append_right _ (List.getElem_mem hi)
  rw [entry_of_mem_params hmem, hl, bound?_append, bound?_getElem hnodup hi, Option.some_or]
  simp [List.getD]

/-- With the hoisting of variables on, all names keep their values if and only if no argument but
`undefined` stands at the index of a new parameter. -/
theorem Lambda.entry_hoisted_iff (hu : l.usesArguments = false) (hv : o.on .hoistVariables = true) :
    (∀ x ∈ l.params ++ Hoist.namesIn l.body,
      l'.entry undefined args x = l.entry undefined args x) ↔
    ∀ i < (l.addedParams o).length, args.getD (l.params.length + i) undefined = undefined := by
  have hadded (x : String) : x ∈ l.addedParams o ↔ x ∈ Hoist.namesIn l.body ∧ x ∉ l.params := by
    simp [addedParams, hv, hu]
  constructor
  · intro h i hi
    obtain ⟨hname, hparam⟩ := (hadded _).1 (List.getElem_mem hi)
    have hsame := h _ (List.mem_append_right _ hname)
    rw [entry_addedParam hl hi, entry_of_mem_namesIn hparam hname] at hsame
    exact Option.some.inj hsame
  · intro h x hx
    by_cases hparam : x ∈ l.params
    · exact entry_param hl hparam
    · have hname : x ∈ Hoist.namesIn l.body := (List.mem_append.1 hx).resolve_left hparam
      obtain ⟨i, hi, rfl⟩ := List.mem_iff_getElem.1 ((hadded x).2 ⟨hname, hparam⟩)
      rw [entry_addedParam hl hi, h i hi, entry_of_mem_namesIn hparam hname]

end Params

/-- The names that a `var` binds. -/
def Form.varNames {α : Type} : Form α → List String
  | .definitions .var bindings _ => bindings.map (·.name)
  | _ => []

instance : Form.Declarative (x ∈ ·.varNames) where
  of_ordinary form hd hx := by
    cases form with
    | definitions | declaration => cases hd
    | _ => cases hx
  bare kind bs h := by
    cases kind with
    | var => simp [Form.varNames, Function.comp_def]
    | const => rfl

namespace Form

theorem map_name_varsOf (n : Node) : (Hoist.varsOf n).map (·.name) = n.form.varNames := by
  obtain ⟨form, span⟩ := n
  cases form with
  | definitions kind bs h => cases kind <;> rfl
  | _ => rfl

theorem varNames_surfaceForm {h : Hoist} (form : Form Node) :
    (h.surfaceForm span form).varNames = form.varNames := by
  cases form <;> rfl

theorem Lift.varNames {form form' : Form Node} {R : Category → Node → Node → Prop}
    {L : List Node → List Node → Prop} (h : form.Lift R L form') :
    form'.varNames = form.varNames := by
  have hnames := h.declaredNames
  cases h with
  | @definitions kind =>
    cases kind with
    | var => exact hnames
    | const => rfl
  | _ => rfl

end Form

theorem Hoist.mem_namesIn {body : List Node} :
    x ∈ namesIn body ↔ ∃ n ∈ body, n.Finds (x ∈ ·.varNames) := by
  rw [namesIn, List.mem_eraseDups, List.map_flatMap, List.mem_flatMap]
  simp only [Form.map_name_varsOf]
  exact exists_mem_flatMap

/-- The function that a function expression or a function declaration consists of. -/
def Form.lambda? {α : Type} : Form α → Option (Lambda α)
  | .function l | .declaration l => some l
  | _ => none

/-- A function becomes one with the added parameters whose body is the tidied body of the scope. -/
theorem gives_lambda {F : Fault → Prop} {R : Node → Node → Prop} {s : Setting}
    (hl : n.form.lambda? = some l) (hm : n.form.isMarked = false)
    (hbody : ∀ a ∈ (o.hoist.surfaceLambda n.span l).body,
      Gives F (s.child .other .other).Holds (a.reduce o) (R a)) :
    Gives F s.Holds (n.reduce o) fun m => ∃ l', m.form.lambda? = some l' ∧
      l'.params = l.params ++ l.addedParams o ∧
      Statements.Tidied o R (o.hoist.surfaceLambda n.span l).body l'.body := by
  obtain ⟨form, span⟩ := n
  refine gives_reduce (R := fun _ => R) hm (fun c hc => hc.1) (fun k a ha => ?_) fun form' h => ?_
  · cases form with
    | function | declaration =>
      obtain rfl := Option.some.inj hl
      obtain ⟨b, hb, hka⟩ := List.mem_map.1 ha
      cases hka
      exact (hbody a hb).narrow fun _ => Setting.holds_child
    | _ => cases hl
  · cases form with
    | function =>
      obtain rfl := Option.some.inj hl
      cases h with
      | function htidied =>
        refine ⟨trivial, fun m hm' => ?_⟩
        obtain rfl := hm'
        exact ⟨_, rfl, Hoist.params_surfaceLambda _ _, htidied⟩
    | declaration =>
      obtain rfl := Option.some.inj hl
      cases h with
      | declaration htidied =>
        refine ⟨trivial, fun m hm' => ?_⟩
        obtain rfl := hm'
        exact ⟨_, rfl, Hoist.params_surfaceLambda _ _, htidied⟩
    | _ => cases hl

namespace Hoist

variable {h : Hoist} {body : List Node}

theorem varNames_mark (n : Node) : (h.mark n).form.varNames = n.form.varNames := by
  have hnames := declaredNames_mark (h := h) n
  obtain ⟨form, span⟩ := n
  rw [mark_mk] at hnames ⊢
  cases form with
  | definitions kind bs hoisted =>
    cases kind with
    | var => exact hnames
    | const => rfl
  | _ => rfl

/-- Where variables are not hoisted, marking leaves every `var` in its place. -/
theorem keeps_mark (hv : h.vars = false) (hn : n.Fits false k)
    (hx : n.Keeps o (x ∈ ·.varNames)) : (h.mark n).Keeps o (x ∈ ·.varNames) := by
  induction n using Node.induct generalizing k with
  | h n ih =>
    obtain ⟨hm, hname⟩ | ⟨c, hc, hx⟩ := Node.keeps_iff.1 hx
    · refine .here ?_ ?_
      · have hhoists : h.hoists n = false := by
          obtain ⟨form, span⟩ := n
          cases form with
          | definitions kind => cases kind <;> first | exact hv | rfl
          | _ => cases hname
        rw [isMarked_mark, hm, hhoists]
        rfl
      · rwa [varNames_mark]
    · obtain ⟨-, hmem⟩ := Node.mem_children_of_kept hc
      obtain ⟨j, hj⟩ := hn.of_mem_children hmem
      refine .part ?_ (ih c hmem hj hx)
      rw [kept_mark hn]
      exact List.mem_map_of_mem hc

theorem keeps_surfaceLambda (hv : h.vars = false) (hl : ∀ n ∈ l.body, n.Fits false .statement)
    (hx : ∃ n ∈ l.body, n.Keeps o (x ∈ ·.varNames)) :
    ∃ n ∈ (h.surfaceLambda span l).body, n.Keeps o (x ∈ ·.varNames) := by
  obtain ⟨n, hn, hx⟩ := hx
  refine ⟨h.mark n, ?_, keeps_mark hv (hl n hn) hx⟩
  have hmem : h.mark n ∈ h.functionsIn l.body ++ l.body.map h.mark :=
    List.mem_append_right _ (List.mem_map_of_mem hn)
  obtain ⟨name, params, body, usesArguments, hoisted⟩ := l
  cases usesArguments with
  | true => exact List.mem_append_right _ hmem
  | false => exact hmem

theorem fits_surfaceLambda (hl : ∀ n ∈ l.body, n.Fits true .statement) :
    ∀ n ∈ (h.surfaceLambda span l).body, n.Fits true .statement := by
  intro n hn
  have hparts : ∀ j a, (j, a) ∈ (Form.function l).parts → a.Fits true j := by
    intro j a ha
    obtain ⟨b, hb, hja⟩ := List.mem_map.1 ha
    cases hja
    exact hl a hb
  exact fits_surfaceForm hparts .statement n (List.mem_map_of_mem hn)

end Hoist

/-- What the names of a function are bound to on entry, before and after it is reduced. -/
structure Lambda.EntersAs (o : Options) (l l' : Lambda Node) : Prop where
  /-- Parameters keep their values. -/
  params : ∀ (V : Type) (undefined : V) (args : List V), ∀ x ∈ l.params,
    l'.entry undefined args x = l.entry undefined args x
  /-- Variables that become parameters keep theirs unless the call has arguments for them. -/
  hoisted : o.on .hoistVariables = true → ∀ (V : Type) (undefined : V) (args : List V),
    (∀ x ∈ l.params ++ Hoist.namesIn l.body,
      l'.entry undefined args x = l.entry undefined args x) ↔
    ∀ i < (l.addedParams o).length, args.getD (l.params.length + i) undefined = undefined
  /-- Variables that stay in the body keep theirs where no rule drops the `var`. -/
  kept : o.on .hoistVariables = false → (∀ n ∈ l.body, n.Fits false .statement) →
    ∀ x, (∃ n ∈ l.body, n.Keeps o (x ∈ ·.varNames)) →
    ∀ (V : Type) (undefined : V) (args : List V),
      l'.entry undefined args x = l.entry undefined args x

/-- Reducing a function with a body of statements ends well. Where variables are not hoisted, what
is kept of the `var` statements of the body is found in the reduced body. -/
theorem gives_kept_names (hl : n.form.lambda? = some l) (hm : n.form.isMarked = false)
    (hbody : ∀ n ∈ l.body, n.Fits false .statement) (x : String) (c : Context) :
    Gives (fun _ => False) (⟨c.testsTruth, c.head?⟩ : Setting).Holds (n.reduce o) fun m =>
      ∃ l', m.form.lambda? = some l' ∧ (o.on .hoistVariables = false →
        (∃ n ∈ l.body, n.Keeps o (x ∈ ·.varNames)) → x ∈ Hoist.namesIn l'.body) := by
  have hfits : ∀ a ∈ (o.hoist.surfaceLambda n.span l).body, a.Fits true .statement :=
    Hoist.fits_surfaceLambda fun a ha => (hbody a ha).of_unmarked
  have hbelow : Category.statement.Below (some ⟨.other, .other⟩) := by
    intro e he
    cases he
  have hchild : ((⟨c.testsTruth, c.head?⟩ : Setting).child .other .other).Holds
      (⟨.other, .other⟩ :: c) := ⟨rfl, rfl⟩
  refine (gives_lambda hl hm fun a ha => gives_finds (p := (x ∈ ·.varNames)) (fun h => ?_)
    (fun span form => ?_) (hfits a ha) hbelow hchild).mono ?_
  · rw [h.varNames]
  · rw [Form.varNames_surfaceForm]
  · rintro m ⟨l', hl', -, htidied⟩
    refine ⟨l', hl', fun hv hx => Hoist.mem_namesIn.2 ?_⟩
    rw [htidied.finds_iff (fun _ _ hab => hab.1.fits (by decide)) fun _ _ hab => hab.2]
    exact Hoist.keeps_surfaceLambda hv hbody hx

/-- A function that does not refer to `arguments` is entered with the same values of its parameters
as before it was reduced. So it is with its variables, but for arguments in surplus that meet a new
parameter. -/
theorem reduce_entry (o : Options) (hl : n.form.lambda? = some l) (hm : n.form.isMarked = false)
    (hu : l.usesArguments = false) (s : Session) :
    ((∀ a ∈ l.body, a.Fits false .statement) → ∃ m, ((n.reduce o).run s).1 = .ok m) ∧
    ∀ m, ((n.reduce o).run s).1 = .ok m → ∃ l', m.form.lambda? = some l' ∧ l.EntersAs o l' := by
  have hsetting := Setting.holds_of s.context
  refine ⟨fun hbody => ?_, fun m hrun => ?_⟩
  · obtain ⟨m, -, hrun⟩ := (gives_kept_names hl hm hbody "" s.context).ok
    obtain ⟨ws, hrun⟩ := hrun s.context hsetting s.warnings
    exact ⟨m, congrArg Prod.fst hrun⟩
  · have hgives : Gives (fun _ => True) (⟨s.context.testsTruth, s.context.head?⟩ : Setting).Holds
        (n.reduce o) _ :=
      gives_lambda (R := fun _ _ => True) hl hm fun a _ => gives_reduce_any a _
    obtain ⟨l', hl', hparams, -⟩ := hgives.of_run hsetting hrun
    refine ⟨l', hl', fun V undefined args x hx => Lambda.entry_param hparams hx,
      fun hv V undefined args => Lambda.entry_hoisted_iff hparams hu hv, ?_⟩
    intro hv hbody x hx V undefined args
    obtain ⟨l'', hl'', hnames⟩ :=
      (gives_kept_names hl hm hbody x s.context).of_run hsetting hrun
    obtain rfl := Option.some.inj (hl'.symm.trans hl'')
    by_cases hparam : x ∈ l.params
    · exact Lambda.entry_param hparams hparam
    · have hparam' : x ∉ l'.params := by
        rw [hparams]
        simp [Lambda.addedParams, hv, hparam]
      obtain ⟨a, ha, hkeeps⟩ := hx
      rw [Lambda.entry_of_mem_namesIn hparam' (hnames hv ⟨a, ha, hkeeps⟩),
        Lambda.entry_of_mem_namesIn hparam (Hoist.mem_namesIn.2 ⟨a, ha, hkeeps.finds⟩)]

/-- `function(x){var y;return y}` becomes `function(x,y){return y}`. Called with one argument, both
enter their bodies with the same values. -/
theorem reduce_function_entry :
    let l : Lambda Node := ⟨none, ["x"], [Build.var [("y", none)],
      Build.returning (some (Build.identifier "y"))], false, false⟩
    let l' : Lambda Node := ⟨none, ["x", "y"],
      [Build.returning (some (Build.identifier "y"))], false, false⟩
    ((Build.function l.params l.body).reduce .full |>.run .initial).1 =
        .ok (Build.function l'.params l'.body) ∧
      ∀ v : Primitive, ∀ x ∈ l.params ++ Hoist.namesIn l.body,
        l'.entry .undefined [v] x = l.entry .undefined [v] x := by
  intro l l'
  have hrun : ((Build.function l.params l.body).reduce .full |>.run .initial).1 =
      .ok (Build.function l'.params l'.body) := by cbv
  have hadded : l.addedParams .full = ["y"] := by cbv
  obtain ⟨m, hm, henters⟩ := (reduce_entry .full (n := Build.function l.params l.body) (l := l) rfl
    rfl rfl .initial).2 _ hrun
  obtain rfl : l' = m := Option.some.inj hm
  refine ⟨hrun, fun v => (henters.hoisted rfl Primitive .undefined [v]).2 fun i hi => ?_⟩
  rw [hadded] at hi
  obtain rfl : i = 0 := by simpa using hi
  rfl

/-- Called with two arguments, `function(x){var y;return y}` enters its body with `y` undefined, and
`function(x,y){return y}` with `y` bound to the second argument. -/
theorem reduce_function_entry_surplus :
    let l : Lambda Node := ⟨none, ["x"], [Build.var [("y", none)],
      Build.returning (some (Build.identifier "y"))], false, false⟩
    let args : List Primitive := [.null, .boolean true]
    ∃ l' : Lambda Node, ((Build.function l.params l.body).reduce .full |>.run .initial).1 =
        .ok (Build.function l'.params l'.body) ∧
      "y" ∈ Hoist.namesIn l.body ∧ l.entry .undefined args "y" = some .undefined ∧
      l'.entry .undefined args "y" = some (.boolean true) := by
  intro l args
  have hnames : Hoist.namesIn l.body = ["y"] := by cbv
  refine ⟨⟨none, ["x", "y"], [Build.returning (some (Build.identifier "y"))], false, false⟩,
    ?_, by simp [hnames], ?_, ?_⟩
  · cbv
  · cbv
  · cbv

end ScriptMinifier
