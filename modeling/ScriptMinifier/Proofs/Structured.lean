import ScriptMinifier.Proofs.Rewriting

namespace ScriptMinifier

open Interpretation

/-- A structured statement, or an expression built of forms that satisfy `P`, in its place. -/
inductive Node.Structured (P : Form Node → Prop) : Category → Node → Prop
  | expression {k : Category} {n : Node} : k ≠ .statement → n.BuiltOf P → Structured P k n
  | statement {k : Category} {form : Form Node} {span : Span} : form.isStructured = true →
    (k = .statement ∨ k = .head ∧ ∃ bs hoisted, form = .definitions .var bs hoisted) →
    (∀ j a, (j, a) ∈ form.parts → Structured P j a) → Structured P k ⟨form, span⟩

namespace Node.Structured

variable {P : Form Node → Prop} {k : Category} {n : Node}

theorem builtOf (h : n.Structured P k) (hs : k ≠ .statement) (hh : k ≠ .head) : n.BuiltOf P := by
  cases h with
  | expression _ hn => exact hn
  | statement _ hk _ =>
    obtain rfl | ⟨rfl, -⟩ := hk
    · exact absurd rfl hs
    · exact absurd rfl hh

theorem mono {Q : Form Node → Prop} (h : n.Structured P k) (hPQ : ∀ form, P form → Q form) :
    n.Structured Q k := by
  induction h with
  | expression hk hn => exact .expression hk (hn.mono hPQ)
  | statement hs hk _ ih => exact .statement hs hk ih

theorem of_mem_visited (hP : ∀ form, P form → form.opensScope = false) (h : n.Structured P k)
    {descend : Node → Bool} {m : Node} (hm : m ∈ n.visited descend) : ∃ j, m.Structured P j := by
  induction n using Node.induct generalizing k with
  | h n ih =>
    rw [Node.visited_eq] at hm
    rcases List.mem_cons.1 hm with rfl | hm
    · exact ⟨k, h⟩
    · split at hm
      · obtain ⟨c, hc, hmc⟩ := List.mem_flatMap.1 hm
        cases h with
        | expression hk hn =>
          obtain ⟨form, span⟩ := n
          exact ih c hc (.expression (by decide : Category.expression ≠ .statement)
            (hn.child (hP _ hn.holds) hc)) hmc
        | statement _ _ hp =>
          obtain ⟨j, hj⟩ := Form.exists_part hc
          exact ih c hc (hp j c hj) hmc
      · cases hm

end Node.Structured

section Definitions

variable {m : Type → Type} [Monad m] {I : Interpretation m} {drop : m Primitive → m Primitive}
  {o : Options} {r : Nat} {span : Span}

/-- Nothing is dropped of an expression whose value is asked. -/
theorem Node.audit_value {n : Node} :
    n.audit I drop o false = I.layer ((n.form.map (audit I drop o)).asked false) := by
  have hkeep : n.discards o false = false := by simp [Node.discards]
  rw [audit_eq, hkeep]
  rfl

/-- Evaluates an expression for its effects. -/
def Node.effect (I : Interpretation m) (drop : m Primitive → m Primitive) (o : Options)
    (n : Node) : m Completion := do
  let _ ← n.audit I drop o false
  return .normal

variable [LawfulMonad m]

theorem define_eq {effect : Node → m Completion} (b : Binding Node) :
    I.define (b.map fun e => ⟨e.audit I drop o, effect e⟩) =
      orNothing (b.assignment?.map (Node.effect I drop o)) := by
  obtain ⟨name, v?, s⟩ := b
  cases v? with
  | none => rfl
  | some v =>
    have hname : (⟨.identifier name, s⟩ : Node).audit I drop o false =
        I.act (.identifier name) [] := Node.audit_value
    have hassign : (⟨.assign .assign ⟨.identifier name, s⟩ v, s⟩ : Node).audit I drop o false =
        I.act (.identifier name) [] >>= fun u => v.audit I drop o false >>= fun w =>
          I.act (.assign .assign) [u, w] := by
      rw [Node.audit_value, ← hname]
      rfl
    change _ = Node.effect I drop o ⟨.assign .assign ⟨.identifier name, s⟩ v, s⟩
    rw [Node.effect, hassign]
    simp only [bind_assoc]
    rfl

theorem inOrder_orNothing {α : Type} (f : α → Option (m Completion)) (as : List α) :
    inOrder (as.map fun a => orNothing (f a)) = inOrder (as.filterMap f) := by
  induction as with
  | nil => rfl
  | cons a as ih =>
    rw [List.map_cons, List.filterMap_cons]
    cases f a with
    | none =>
      change follow (pure .normal) _ = _
      rw [follow_pure_normal, ih]
    | some x => exact congrArg (follow x) ih

theorem inOrder_commaJoined (n : Node) (ns : List Node) :
    inOrder ((n :: ns).map (Node.effect I drop o)) =
      (n.commaJoined ns).effect I drop o := by
  induction ns generalizing n with
  | nil => exact follow_normal
  | cons n' ns ih =>
    have hsequence : (n.commaJoined (n' :: ns)).audit I drop o false =
        n.audit I drop o false >>= fun _ => (n'.commaJoined ns).audit I drop o false :=
      Node.audit_value
    rw [List.map_cons, inOrder, ih, Node.effect, Node.effect, Node.effect, hsequence, follow,
      bind_assoc, bind_assoc]
    refine bind_congr fun v => ?_
    rw [pure_bind]

/-- A `var` does what its assignments do. -/
theorem exec_definitions {bs : List (Binding Node)} {hoisted : Bool} :
    (⟨.definitions .var bs hoisted, span⟩ : Node).exec I (Node.audit I drop o) r =
      orNothing ((assignments? bs).map (Node.effect I drop o)) := by
  rw [Node.exec_statement rfl]
  change inOrder ((bs.map (Binding.map _)).map I.define) = _
  rw [List.map_map, Function.comp_def]
  simp only [define_eq]
  rw [inOrder_orNothing, ← List.map_filterMap, assignments?]
  split
  · rename_i h
    rw [h]
    rfl
  · rename_i a as h
    rw [h, inOrder_commaJoined]
    rfl

end Definitions

namespace Hoist

variable {P : Form Node → Prop} {h : Hoist} {k : Category} {n : Node}

/-- A structured statement is marked below itself as well. -/
theorem mark_structured {form : Form Node} {span : Span} (hs : form.isStructured = true) :
    h.mark ⟨form, span⟩ =
      ⟨(form.map h.mark).withHoisted (form.isHoisted || h.hoists ⟨form, span⟩), span⟩ := by
  rw [mark_mk]
  cases form with
  | declaration | function => cases hs
  | _ => rfl

theorem isStatement_mark {form : Form Node} {span : Span} (hs : form.isStructured = true) :
    (h.mark ⟨form, span⟩).isStatement = true := by
  rw [mark_structured hs]
  cases form with
  | _ => first | rfl | cases hs

theorem structured_mark (hn : n.Structured P k) :
    (h.mark n).Structured P k := by
  induction n using Node.induct generalizing k with
  | h n ih =>
    cases hn with
    | expression hk hn =>
      rw [mark_eq hn]
      exact .expression hk hn
    | @statement _ form span hs hk hp =>
      rw [mark_structured hs]
      refine .statement ?_ ?_ fun j a ha => ?_
      · cases form with
        | definitions kind => cases kind <;> exact hs
        | _ => exact hs
      · refine hk.imp_right fun hhead => ⟨hhead.1, ?_⟩
        obtain ⟨_, bs, hoisted, rfl⟩ := hhead
        exact ⟨_, _, rfl⟩
      · simp only [Form.parts_withHoisted, Form.parts_map, List.mem_map, Prod.mk.injEq] at ha
        obtain ⟨⟨j', a'⟩, ha, rfl, rfl⟩ := ha
        exact ih a' (Form.mem_children_of_parts ha) (hp _ _ ha)

variable {m : Type → Type} [Monad m] {I : Interpretation m} {drop : m Primitive → m Primitive}
  {o : Options} {r : Nat}

theorem audit_mark (hn : n.Structured P k) :
    (h.mark n).audit I drop o = n.audit I drop o := by
  cases hn with
  | expression hk hn => rw [mark_eq hn]
  | @statement _ form span hs hk hp =>
    funext truth
    rw [Node.audit_statement (isStatement_mark hs),
      Node.audit_statement (Node.isStatement_of_isStructured hs)]

/-- Marks do not matter to an execution. -/
theorem exec_mark (hn : n.Structured P k) :
    (h.mark n).exec I (Node.audit I drop o) r = n.exec I (Node.audit I drop o) r := by
  induction n using Node.induct generalizing k with
  | h n ih =>
    cases hn with
    | expression hk hn => rw [mark_eq hn]
    | @statement _ form span hs hk hp =>
      have hperform (g : Form (Piece m)) (b : Bool) :
          I.perform r (g.withHoisted b) = I.perform r g := by
        cases g <;> rfl
      have hpart (c : Node) (hc : c ∈ form.children) :
          (⟨(h.mark c).audit I drop o, (h.mark c).exec I (Node.audit I drop o) r⟩ : Piece m) =
            ⟨c.audit I drop o, c.exec I (Node.audit I drop o) r⟩ := by
        obtain ⟨j, hj⟩ := Form.exists_part hc
        rw [ih c hc (hp j c hj), audit_mark (hp j c hj)]
      rw [Node.exec_statement (isStatement_mark hs),
        Node.exec_statement (Node.isStatement_of_isStructured hs), mark_structured hs, Node.form_mk,
        Node.form_mk, Form.map_withHoisted, hperform, ← Form.map_map]
      exact congrArg _ (Form.map_congr hpart)

variable {body : List Node} {span : Span}

/-- A structured program declares no functions. -/
theorem functionsIn_eq_nil (hP : ∀ form, P form → form.opensScope = false)
    (hb : ∀ n ∈ body, n.Structured P .statement) : h.functionsIn body = [] := by
  rw [functionsIn]
  split
  · refine List.filter_eq_nil_iff.2 fun c hc hf => ?_
    obtain ⟨n, hn, hcn⟩ := List.mem_flatMap.1 hc
    obtain ⟨j, hj⟩ := (hb n hn).of_mem_visited hP hcn
    obtain ⟨form, span⟩ := c
    cases form with
    | declaration l =>
      cases hj with
      | expression _ hbuilt => exact Bool.noConfusion hbuilt.isStatement
      | statement hs => cases hs
    | _ => cases hf
  · rfl

theorem surface_structured (hP : ∀ form, P form → form.opensScope = false)
    (hb : ∀ n ∈ body, n.Structured P .statement) :
    (h.surface none span body).1 = declaration (h.varsIn body) span ++ body.map h.mark := by
  change declaration _ span ++ (h.functionsIn body ++ body.map h.mark) = _
  rw [functionsIn_eq_nil hP hb, List.nil_append]

theorem structured_surface (hP : ∀ form, P form → form.opensScope = false)
    (hb : ∀ n ∈ body, n.Structured P .statement) {c : Node}
    (hc : c ∈ (h.surface none span body).1) : c.Structured P .statement := by
  rw [surface_structured hP hb] at hc
  rcases List.mem_append.1 hc with hc | hc
  · rw [declaration] at hc
    split at hc
    · cases hc
    · obtain rfl := List.mem_singleton.1 hc
      refine .statement rfl (.inl rfl) fun j a ha => ?_
      simp [Form.parts] at ha
  · obtain ⟨n, hn, rfl⟩ := List.mem_map.1 hc
    exact structured_mark (hb n hn)

/-- Listing the variables of a program at its top does nothing. -/
theorem exec_surface [LawfulMonad m] (hP : ∀ form, P form → form.opensScope = false)
    (hb : ∀ n ∈ body, n.Structured P .statement) :
    inOrder ((h.surface none span body).1.map (Node.exec I (Node.audit I drop o) r)) =
      inOrder (body.map (Node.exec I (Node.audit I drop o) r)) := by
  have hdeclaration (bs : List (Binding Node)) : inOrder
      ((declaration bs span).map (Node.exec I (Node.audit I drop o) r)) = pure .normal := by
    rw [declaration]
    split
    · rfl
    · have hnone : assignments? (bs.map Binding.bare) = none := by
        have hbare : (bs.map Binding.bare).filterMap Binding.assignment? = [] := by
          rw [List.filterMap_map]
          exact List.filterMap_eq_nil_iff.2 fun _ _ => rfl
        rw [assignments?, hbare]
      change follow (Node.exec _ _ _ _) (pure .normal) = _
      rw [follow_normal, exec_definitions, hnone]
      rfl
  rw [surface_structured hP hb, List.map_append, inOrder_append, hdeclaration, follow_pure_normal,
    List.map_map]
  congr 1
  refine List.map_congr_left fun n hn => ?_
  exact exec_mark (hb n hn)

end Hoist

end ScriptMinifier
