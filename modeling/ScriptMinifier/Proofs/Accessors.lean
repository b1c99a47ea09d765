import ScriptMinifier.Proofs.Surface
import ScriptMinifier.Tree.Build

namespace ScriptMinifier

open Pass (Gives)

variable {o : Options} {h : Hoist} {span : Span} {n : Node} {l : Lambda Node}

/-- The names that a function takes for further parameters. -/
def Lambda.addedParams (o : Options) (l : Lambda Node) : List String :=
  if o.on .hoistVariables && !l.usesArguments then (Hoist.namesIn l.body).filter (· ∉ l.params)
  else []

/-- Hoisting has no name to add to the parameters of a function. -/
def Lambda.KeepsParams (o : Options) (l : Lambda Node) : Prop :=
  o.on .hoistVariables = true → l.usesArguments = true ∨ ∀ x ∈ Hoist.namesIn l.body, x ∈ l.params

namespace Lambda

theorem addedParams_eq_nil_iff : l.addedParams o = [] ↔ l.KeepsParams o := by
  unfold addedParams KeepsParams
  by_cases hv : o.on .hoistVariables = true
  · cases hu : l.usesArguments with
    | true => simp [hv]
    | false => simp [hv, List.filter_eq_nil_iff]
  · simp [hv]

end Lambda

theorem Hoist.params_surfaceLambda (span : Span) (l : Lambda Node) :
    (o.hoist.surfaceLambda span l).params = l.params ++ l.addedParams o := by
  obtain ⟨name, params, body, usesArguments, hoisted⟩ := l
  cases usesArguments with
  | true => simp [surfaceLambda, surface, Lambda.addedParams]
  | false =>
    change extend params ((o.hoist.varsIn body).map (·.name)) = _
    by_cases hv : o.on .hoistVariables = true
    · rw [map_name_varsIn hv, extend_namesIn]
      simp [Lambda.addedParams, hv]
    · have hvars : o.hoist.varsIn body = [] := if_neg hv
      simp [hvars, extend, Lambda.addedParams, hv]

/-- The function `l` at `s` becomes one at the same place, with the same name and the added
parameters, which are none only where hoisting has none to add. -/
def Lambda.BecomesAt (o : Options) (l : Lambda Node) (s : Span) (m : Node) : Prop :=
  ∃ l', m = ⟨.function l', s⟩ ∧ l'.name = l.name ∧ l'.params = l.params ++ l.addedParams o ∧
    (l'.params = l.params ↔ l.KeepsParams o)

theorem Lambda.becomesAt_of_params {l' : Lambda Node} (hname : l'.name = l.name)
    (hparams : l'.params = l.params ++ l.addedParams o) :
    l.BecomesAt o span ⟨.function l', span⟩ := by
  refine ⟨l', rfl, hname, hparams, ?_⟩
  rw [hparams, List.append_right_eq_self, addedParams_eq_nil_iff]

/-- What becomes of a property. -/
structure Property.Reduced (o : Options) (p q : Property Node) : Prop where
  kind : q.kind = p.kind
  key : q.key = p.key
  span : q.span = p.span
  function : ∀ l s, p.value = ⟨.function l, s⟩ → l.BecomesAt o s q.value

/-- What hoisting of the scopes around it makes of a property: its function stays as it is. -/
structure Property.Alike (p q : Property Node) : Prop where
  kind : q.kind = p.kind
  key : q.key = p.key
  span : q.span = p.span
  function : ∀ l s, p.value = ⟨.function l, s⟩ → q.value = p.value

/-- An object literal has properties of the class `T`. -/
def Form.Traced (T : List (Property Node) → Prop) (form : Form Node) : Prop :=
  ∀ ps, form = .object ps → T ps

/-- All object literals of the tree have properties of the class `T`. -/
abbrev Node.Traced (T : List (Property Node) → Prop) : Node → Prop :=
  Node.Throughout (fun _ => true) (Form.Traced T)

section Traced

variable {T : List (Property Node) → Prop}

/-- No rule makes an object literal. -/
theorem sustains_traced : Form.Sustains o (fun _ => true) (Form.Traced T) := by
  refine Form.sustains_of_rebuilt (fun form hf ps hform => ?_) fun _ _ _ _ _ hform => nomatch hform
  subst hform
  cases hf

namespace Hoist

theorem traced_mark (hT : ∀ ps, T ps → T (ps.map (Property.map h.mark))) (hn : n.Traced T) :
    (h.mark n).Traced T := by
  induction n using Node.induct with
  | h n ih =>
    obtain ⟨form, span⟩ := n
    obtain ⟨hself, hchildren⟩ := Node.throughout_iff.1 hn
    rw [mark_mk]
    refine Node.throughout_iff.2 ⟨fun ps hps => ?_, fun _ c hc => ?_⟩
    · cases form with
      | object qs =>
        cases hps
        exact hT qs (hself qs rfl)
      | _ => cases hps
    · rw [Form.children_withHoisted] at hc
      split at hc
      · rw [Form.children_map] at hc
        obtain ⟨a, ha, rfl⟩ := List.mem_map.1 hc
        exact ih a ha (hchildren rfl a ha)
      · exact hchildren rfl c hc

theorem traced_surfaceForm (hT : ∀ ps, T ps → T (ps.map (Property.map h.mark))) {form : Form Node}
    (hform : ∀ c ∈ form.children, c.Traced T) :
    ∀ c ∈ (h.surfaceForm span form).children, c.Traced T :=
  throughout_surfaceForm (fun _ _ hps => nomatch hps) (fun _ _ => rfl) hform
    fun c hc => traced_mark hT (hform c hc)

end Hoist

/-- The properties come from a list of the class `T`. -/
def Property.ReducedFrom (o : Options) (T : List (Property Node) → Prop)
    (qs : List (Property Node)) : Prop :=
  ∃ ps, T ps ∧ List.Forall₂ (Property.Reduced o) ps qs

/-- What is to be shown of a node along the pass. -/
def Node.Carries (o : Options) (T : List (Property Node) → Prop) (n m : Node) : Prop :=
  m.Traced (Property.ReducedFrom o T) ∧
    ∀ l s, n = ⟨.function l, s⟩ → l.BecomesAt o s m

/-- The invariant of the pass: object literals come from such, and functions stay functions. -/
theorem gives_carries (hT : ∀ ps, T ps → T (ps.map (Property.map o.hoist.mark))) (n : Node)
    (hn : n.Traced T) (s : Setting) :
    Gives (fun _ => True) s.Holds (n.reduce o) (Node.Carries o T n) := by
  induction n using Node.reduceInduct o generalizing s with
  | unmarked form span hm ihParts =>
    obtain ⟨hself, hchildren⟩ := Node.throughout_iff.1 hn
    have hsurface : ∀ c ∈ (o.hoist.surfaceForm span form).children, c.Traced T :=
      Hoist.traced_surfaceForm hT (hchildren rfl)
    refine gives_reduce (R := fun _ => Node.Carries o T) hm (fun c hc => hc.1)
      (fun k a ha => ?_) fun form' h => ⟨Rule.tests_any form', fun m hm' => ⟨?_, ?_⟩⟩
    · have hpart := hsurface a (Form.mem_children_of_parts ha)
      exact (ihParts k a ha hpart _).narrow fun _ => Setting.holds_child
    · have hparts := h.throughout sustains_traced fun _ _ _ h => h.1
      refine Rule.throughout_of_simplified sustains_traced (fun _ _ qs hqs => ?_)
        (fun _ => hparts) hm'
      subst hqs
      cases form with
      | object ps =>
        cases h with
        | object h =>
          refine ⟨ps, hself ps rfl, h.imp fun p q hpq => ?_⟩
          cases hpq with
          | mk value hvalue => exact ⟨rfl, rfl, rfl, hvalue.2⟩
      | _ => cases h
    · intro l _ hl
      cases hl
      cases h with
      | function h =>
        obtain rfl := hm'
        exact Lambda.becomesAt_of_params rfl (Hoist.params_surfaceLambda span l)
  | declaration l span hl =>
    exact (sustains_traced.gives_declaration hl).mono fun m hm => ⟨hm, fun _ _ h => nomatch h⟩
  | definitions kind bs span ihAssignments =>
    have hvalues : ∀ b ∈ bs, ∀ v ∈ b.value, v.Traced T := by
      intro b hb v hv
      exact (Node.throughout_iff.1 hn).2 rfl v (List.mem_filterMap.2 ⟨b, hb, hv⟩)
    refine (sustains_traced.gives_definitions fun a ha => ?_).mono
      fun m hm => ⟨hm, fun _ _ h => nomatch h⟩
    have hassignments := (sustains_traced (o := o)).assigned hvalues ha
    exact (ihAssignments a ha hassignments _).mono fun m hm => hm.1

end Traced

/-- The properties of an object literal of the tree, as hoisting of the scopes around leaves them. -/
def Node.HasObject (n : Node) (ps : List (Property Node)) : Prop :=
  ∃ x ∈ n.visited fun _ => true, ∃ qs, x.form = .object qs ∧ List.Forall₂ Property.Alike qs ps

theorem Node.HasObject.map_mark {ps : List (Property Node)} (hps : n.HasObject ps) :
    n.HasObject (ps.map (Property.map h.mark)) := by
  obtain ⟨x, hx, qs, hform, halike⟩ := hps
  refine ⟨x, hx, qs, hform, ?_⟩
  rw [List.forall₂_map_right_iff]
  refine halike.imp fun p q hpq => ⟨hpq.kind, hpq.key, hpq.span, fun l s hl => ?_⟩
  have hvalue : q.value = ⟨.function l, s⟩ := (hpq.function l s hl).trans hl
  change h.mark q.value = p.value
  rw [hvalue, Hoist.mark_function, hl]

theorem Node.traced_hasObject (n : Node) : n.Traced n.HasObject := by
  intro m hm ps hps
  refine ⟨m, hm, ps, hps, List.forall₂_same.2 fun p _ => ?_⟩
  exact ⟨rfl, rfl, rfl, fun _ _ _ => rfl⟩

theorem Property.Alike.trans_reduced {p q r : Property Node} (hpq : p.Alike q)
    (hqr : Property.Reduced o q r) : Property.Reduced o p r where
  kind := hqr.kind.trans hpq.kind
  key := hqr.key.trans hpq.key
  span := hqr.span.trans hpq.span
  function l s hl := hqr.function l s ((hpq.function l s hl).trans hl)

theorem Property.reduced_of_alike {ps qs rs : List (Property Node)}
    (hpq : List.Forall₂ Property.Alike ps qs) (hqr : List.Forall₂ (Property.Reduced o) qs rs) :
    List.Forall₂ (Property.Reduced o) ps rs := by
  induction hpq generalizing rs with
  | nil => exact hqr
  | cons hp _ ih =>
    cases hqr with
    | cons hq hqr => exact .cons (hp.trans_reduced hq) (ih hqr)

/-- Whatever is minified, each object literal of the outcome comes from one of the input: property
by property the kind, the key and the place are kept, and a function stays a function. -/
theorem minify_property_params (o : Options) (n m : Node) (h : (minify o n).result = .ok m) :
    ∀ y ∈ m.visited fun _ => true, ∀ qs, y.form = .object qs →
      ∃ x ∈ n.visited fun _ => true, ∃ ps, x.form = .object ps ∧
        List.Forall₂ (Property.Reduced o) ps qs := by
  intro y hy qs hqs
  have hcarries : Node.Carries o n.HasObject n m :=
    (gives_carries (fun ps hps => hps.map_mark) n n.traced_hasObject .initial).of_run
      Setting.holds_initial h
  obtain ⟨ps, ⟨x, hx, rs, hrs, halike⟩, hreduced⟩ := hcarries.1 y hy qs hqs
  exact ⟨x, hx, rs, hrs, Property.reduced_of_alike halike hreduced⟩

/-- `({set x(v){arguments;var y;}})` keeps its parameters, for it refers to `arguments`. -/
theorem minify_arguments_setter_params :
    let setter (l : Lambda Node) : Node := Build.program [Build.statement
      (Form.object [⟨.setter, "x", (Form.function l).node, default⟩]).node]
    let body := [Build.statement (Build.identifier "arguments"), Build.var [("y", none)]]
    let body' := [Build.var [("y", none)], Build.statement (Build.identifier "arguments")]
    let n := setter ⟨none, ["v"], body, true, false⟩
    let m := setter ⟨none, ["v"], body', true, false⟩
    (minify .full n).result = .ok m ∧ ∀ y ∈ m.visited fun _ => true, ∀ qs, y.form = .object qs →
      ∃ x ∈ n.visited fun _ => true, ∃ ps, x.form = .object ps ∧
        List.Forall₂ (Property.Reduced .full) ps qs := by
  intro setter body body' n m
  have h : (minify .full n).result = .ok m := by cbv
  exact ⟨h, minify_property_params .full n m h⟩

/-- `({get x(){var y;}})` becomes `({get x(y){}})`. -/
theorem minify_getter_gains_param :
    let getter (l : Lambda Node) : Node := Build.program [Build.statement
      (Form.object [⟨.getter, "x", (Form.function l).node, default⟩]).node]
    ∃ l l' : Lambda Node, (minify .full (getter l)).result = .ok (getter l') ∧
      l.params = [] ∧ l'.params = ["y"] := by
  intro getter
  refine ⟨⟨none, [], [Build.var [("y", none)]], false, false⟩, ⟨none, ["y"], [], false, false⟩, ?_,
    rfl, rfl⟩
  cbv

end ScriptMinifier
