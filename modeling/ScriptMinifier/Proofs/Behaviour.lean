import ScriptMinifier.Proofs.Structured

namespace ScriptMinifier

open Interpretation
open Pass (Gives Inside)

/-- An expression that stands as a statement, alone or below blocks, satisfies `P`. -/
inductive Node.Settled (P : Node → Prop) : Node → Prop
  | mk {form : Form Node} {span : Span} : (∀ e, form = .expression e → P e) →
    (∀ body, form = .block body → ∀ n ∈ body, Settled P n) → Settled P ⟨form, span⟩

namespace Node.Settled

variable {P : Node → Prop} {form : Form Node} {span : Span}

theorem value {e : Node} (h : (⟨.expression e, span⟩ : Node).Settled P) : P e := by
  cases h with
  | mk he _ => exact he e rfl

theorem expression {e : Node} (h : P e) : (⟨.expression e, span⟩ : Node).Settled P :=
  .mk (fun _ h' => Form.expression.inj h' ▸ h) (by simp)

theorem stable (hP : ∀ {a b s}, P a → P b → P ⟨.sequence a b, s⟩) :
    Statements.Stable (Node.Settled P) where
  block h n hn := by
    cases h with
    | mk _ hb => exact hb _ rfl n hn
  survivors _ := Statements.forall_survivors (fun _ _ _ _ _ => .mk (by simp) (by simp))
    fun _ _ _ => .mk (by simp) (by simp)
  sequence ha hb := .expression (hP ha.value hb.value)
  exit _ _ := .mk (by simp) (by simp)

end Node.Settled

namespace Rule

variable {P : Node → Prop} {o : Options} {truth : Bool} {span : Span} {n : Node}

theorem carries_settled (hP : Closed P) (o : Options) : Carries o P (Node.Settled P) where
  toKeeps := hP.keeps o
  logical := hP.logical
  expression := ⟨Node.Settled.value, Node.Settled.expression⟩
  exit _ _ _ := .mk (by simp) (by simp)
  empty := .mk (by simp) (by simp)
  branch _ _ _ _ := .mk (by simp) (by simp)

/-- The rule for a structured statement settles what its parts settle. -/
theorem settled_simplified (hP : Closed P) {form : Form Node} (hs : form.isStructured = true)
    (hv : ∀ a, (.expression, a) ∈ form.parts ∨ (.condition, a) ∈ form.parts → P a)
    (hp : ∀ a, (.statement, a) ∈ form.parts → a.Settled P)
    (h : Simplified o truth span form n) : n.Settled P := by
  cases form with
  | expression e =>
    obtain rfl := h
    exact .expression (hv e (.inl (by simp [Form.parts])))
  | block body =>
    obtain ⟨a, rfl, rfl⟩ | rfl := simplified_block h
    · exact hp _ (by simp [Form.parts])
    · refine .mk (by simp) fun body' hbody => ?_
      obtain rfl := Form.block.inj hbody
      exact fun a ha => hp a (by simpa [Form.parts] using ha)
  | branch c x y? =>
    refine (carries_settled hP o).branched h (hv c (.inr (by simp [Form.parts])))
      (hp x (by simp [Form.parts])) fun y hy => hp y ?_
    simpa [Form.parts] using .inr hy
  | loop kind c x => cases h <;> exact .mk (by simp) (by simp)
  | empty | exit | jump | definitions | forLoop =>
    obtain rfl := h
    exact .mk (by simp) (by simp)
  | _ => cases hs

end Rule

/-- Of the parts of a structured statement only the truth of conditions is asked alone. -/
theorem Form.asksTruth_structured {form : Form Node} {j : Category} {a : Node}
    (hs : form.isStructured = true) (ha : (j, a) ∈ form.parts) :
    form.enclosureKind.asksTruth j.role false = decide (j = .condition) := by
  have hother (h : form.enclosureKind = .other) (hj : j ≠ .condition) :
      form.enclosureKind.asksTruth j.role false = decide (j = .condition) := by
    rw [h, decide_eq_false hj]
    rfl
  cases form with
  | expression | block | exit | definitions =>
    refine hother rfl ?_
    rintro rfl
    simp [Form.parts] at ha
  | empty | jump => simp [Form.parts] at ha
  | branch | loop | forLoop => cases j <;> rfl
  | _ => cases hs

theorem Form.category_structured {form : Form Node} {j : Category} {a : Node}
    (hs : form.isStructured = true) (ha : (j, a) ∈ form.parts) :
    j = .expression ∨ j = .condition ∨ j = .head ∨ j = .statement := by
  cases form with
  | expression | block | exit | definitions | empty | jump | branch | loop | forLoop =>
    simp only [Form.parts] at ha
    grind
  | _ => cases hs

namespace Comparison

variable {m m' : Type → Type} [Monad m] [Monad m'] (K : Comparison m m') (I : Interpretation m)
  (J : Interpretation m') (drop : m Primitive → m Primitive) (o : Options)

/-- What has come of a part of a structured statement. -/
structure Reduced (j : Category) (n n' : Node) : Prop where
  does : ∀ r, K.Matches j ⟨n.audit I drop o, n.exec I (Node.audit I drop o) r⟩
    ⟨fun _ => n'.eval J, n'.run J r⟩
  built : j = .expression ∨ j = .condition → n'.BuiltOf (o.Sound J)
  settled : j = .statement → n'.Settled (Node.BuiltOf (o.Sound J))

variable {K I J drop o} [LawfulMonad m] [LawfulMonad m']

omit [LawfulMonad m] in
theorem exec_of_builtOf {P : Form Node → Prop} {n : Node} (h : n.BuiltOf P)
    {value : Node → Bool → m Primitive} {r : Nat} :
    n.exec I value r = value n false >>= fun _ => pure .normal := by
  obtain ⟨form, span⟩ := n
  have hs : (⟨form, span⟩ : Node).isStatement = false := h.isStatement
  rw [Node.exec_eq, hs]
  rfl

/-- An expression without functions is reduced, alone or as the start of a `for`. -/
theorem gives_expression (hI : K.Shares I J) (hd : o.on .booleans = true → K.Drops drop) {n : Node}
    (hn : n.BuiltOf fun form => form.opensScope = false ∧ o.Sound J form) {j : Category}
    (hj : j = .expression ∨ j = .condition ∨ j = .head) {truth : Bool}
    (ht : truth = decide (j = .condition)) :
    Gives (fun _ => False) (Asks truth) (n.reduce o) (K.Reduced I J drop o j n) := by
  have hsound : n.BuiltOf fun form => o.Sound J form ∧ form.ScopeFits :=
    hn.mono fun form h => ⟨h.2, fun ho => by rw [h.1] at ho; cases ho⟩
  refine (gives_audited hI hd hsound truth).mono fun n' h => ?_
  obtain ⟨hbuilt, hrel⟩ := h
  subst ht
  obtain rfl | rfl | rfl := hj
  · exact ⟨fun r => hrel, fun _ => hbuilt, by simp⟩
  · exact ⟨fun r => hrel, fun _ => hbuilt, by simp⟩
  · refine ⟨fun r => ?_, fun _ => hbuilt, by simp⟩
    change K.rel Eq (n.exec I _ r) (n'.exec J _ r)
    rw [exec_of_builtOf hn, exec_of_builtOf hbuilt]
    exact K.rel_bind hrel fun _ _ _ => K.rel_pure rfl

omit [LawfulMonad m'] in
/-- A marked `var` becomes its assignments where it stands. -/
theorem reduced_placeAssignments {k : Category} (hk : k = .statement ∨ k = .head)
    {parent? : Option Enclosure} (hs : k.Below parent?) {bs : List (Binding Node)}
    {a? : Option Node} {span : Span}
    (ha : Option.Rel (K.Reduced I J drop o .expression) (assignments? bs) a?) :
    K.Reduced I J drop o k ⟨.definitions .var bs true, span⟩
      (Rule.placeAssignments parent? bs a? span) := by
  have hbuilt : ∀ a ∈ a?, a.BuiltOf (o.Sound J) := by
    generalize assignments? bs = v? at ha
    cases ha with
    | none => simp
    | some h =>
      rintro _ ⟨⟩
      exact h.built (.inl rfl)
  have hdoes (r : Nat) : K.rel Eq
      ((⟨.definitions .var bs true, span⟩ : Node).exec I (Node.audit I drop o) r)
      (orNothing (a?.map fun a => a.eval J >>= fun _ => pure .normal)) := by
    rw [exec_definitions]
    generalize assignments? bs = v? at ha
    cases ha with
    | none => exact K.rel_pure rfl
    | some h => exact K.rel_bind (h.does r) fun _ _ _ => K.rel_pure rfl
  obtain rfl | rfl := hk
  · have hplace : Rule.placeAssignments parent? bs a? span =
        (a?.map fun a => ⟨.expression a, span⟩).getD (.empty span) := by
      unfold Rule.placeAssignments
      split <;> first | exact absurd rfl (hs _) | rfl
    rw [hplace]
    refine ⟨fun r => ?_, by simp, fun _ => ?_⟩
    · cases a? with
      | none => exact Node.run_empty (I := J) (k := r) ▸ hdoes r
      | some a => exact Node.run_expression (I := J) (k := r) ▸ hdoes r
    · cases a? with
      | none => exact .mk (by simp) (by simp)
      | some a => exact .expression (hbuilt a rfl)
  · obtain rfl := hs
    cases a? with
    | none =>
      refine ⟨fun r => ?_, by simp, by simp⟩
      exact Node.run_empty (I := J) (k := r) ▸ hdoes r
    | some a =>
      refine ⟨fun r => ?_, fun _ => hbuilt a rfl, by simp⟩
      have hrun : a.run J r = a.eval J >>= fun _ => pure .normal := exec_of_builtOf (hbuilt a rfl)
      change K.rel Eq _ (a.run J r)
      rw [hrun]
      exact hdoes r

omit [Monad m] [Monad m'] [LawfulMonad m] [LawfulMonad m'] in
theorem builtOf_assignments? {P : Form Node → Prop} {bs : List (Binding Node)} {a : Node}
    (hP : ∀ name s v, P (.identifier name) ∧ P (.assign .assign ⟨.identifier name, s⟩ v))
    (hsequence : ∀ a b, P (.sequence a b)) (hbs : ∀ b ∈ bs, ∀ v ∈ b.value, v.BuiltOf P)
    (ha : a ∈ assignments? bs) : a.BuiltOf P := by
  refine of_mem_assignments? (fun b hb v hv => .mk rfl (hP b.name b.span v).2 fun _ c hc => ?_)
    (fun {a b} ha hb => .mk rfl (hsequence a b) fun _ c hc => ?_) ha
  · obtain rfl | rfl : c = ⟨.identifier b.name, b.span⟩ ∨ c = v := by
      simpa [Form.children] using hc
    · exact .mk rfl (hP b.name b.span v).1 fun _ c hc => by cases hc
    · exact hbs b hb c hv
  · obtain rfl | rfl : c = a ∨ c = b := by simpa [Form.children] using hc
    · exact ha
    · exact hb

omit [LawfulMonad m] in
/-- A list of statements does under audit what the tidied list of the reduced statements does. -/
theorem rel_tidied {r : Nat} {as bs : List Node}
    (h : Statements.Tidied o (K.Reduced I J drop o .statement) as bs) :
    K.rel Eq (inOrder (as.map fun a => a.exec I (Node.audit I drop o) r)) (Node.runAll J r bs) := by
  obtain ⟨ms, hms, rfl⟩ := h
  rw [Statements.runAll_tidied]
  refine rel_inOrder ?_
  rw [List.forall₂_map_left_iff, List.forall₂_map_right_iff]
  exact hms.imp fun a b h => h.does r

/-- Reduced parts of a structured statement, and what the rule for it makes of them. -/
theorem reduced_simplified (hI : K.Shares I J) {form form' : Form Node} {n : Node} {s t : Span}
    (hs : form.isStructured = true)
    (hform : form.Lift (K.Reduced I J drop o)
      (Statements.Tidied o (K.Reduced I J drop o .statement)) form')
    (h : Rule.Simplified o false t form' n) {k : Category} (hk : k = .statement ∨ k = .head) :
    K.Reduced I J drop o k ⟨form, s⟩ n := by
  have hs' : form'.isStructured = true := by
    cases hform with
    | @definitions kind => cases kind <;> exact hs
    | @jump _ label => cases label <;> exact hs
    | _ => exact hs
  have hstable : Statements.Stable (Node.Settled (Node.BuiltOf (o.Sound J))) :=
    Node.Settled.stable fun ha hb => (closed_sound o J).sequence.2 ⟨ha, hb⟩
  have hparts : ∀ j a, (j, a) ∈ form'.parts → (j = .expression ∨ j = .condition →
      a.BuiltOf (o.Sound J)) ∧ (j = .statement → a.Settled (Node.BuiltOf (o.Sound J))) := by
    refine hform.forall_parts (fun j a b h => ⟨h.built, h.settled⟩) fun as bs h b hb => ?_
    exact ⟨by simp, fun _ => hstable.of_tidied h (fun _ _ h => h.settled rfl) b hb⟩
  have hrun (r : Nat) : K.rel Eq ((⟨form, s⟩ : Node).exec I (Node.audit I drop o) r)
      (n.run J r) := by
    have hpieces : (form.map fun a =>
          (⟨a.audit I drop o, a.exec I (Node.audit I drop o) r⟩ : Piece m)).Lift K.Matches
        (fun xs ys => K.rel Eq (inOrder (xs.map (·.effect))) (inOrder (ys.map (·.effect))))
        (form'.map fun a => ⟨fun _ => a.eval J, a.run J r⟩) := by
      refine hform.map (fun j a b h => h.does r) fun as bs h => ?_
      rw [List.map_map, List.map_map]
      exact rel_tidied h
    rw [Rule.run_simplified hs' (fun c hc => (hparts _ c hc).1 (.inr rfl)) h,
      Node.run_eq (Node.isStatement_of_isStructured hs'),
      Node.exec_statement (Node.isStatement_of_isStructured hs)]
    exact hI.rel_perform r hpieces fun _ _ h => h
  have hsettled : n.Settled (Node.BuiltOf (o.Sound J)) :=
    Rule.settled_simplified (closed_sound o J) hs' (fun a ha => by
      rcases ha with ha | ha
      · exact (hparts _ a ha).1 (.inl rfl)
      · exact (hparts _ a ha).1 (.inr rfl)) (fun a ha => (hparts _ a ha).2 rfl) h
  obtain rfl | rfl := hk
  · exact ⟨hrun, by simp, fun _ => hsettled⟩
  · exact ⟨hrun, by simp, by simp⟩

/-- A structured statement is reduced without a fault, to one that does what the statement does
under audit. -/
theorem gives_reduced (hI : K.Shares I J) (hd : o.on .booleans = true → K.Drops drop)
    (hJ : o.on .comparisons = true → J.Typical) {n : Node} {k : Category} {s : Setting}
    (hn : n.Structured (fun form => form.opensScope = false ∧ o.Sound J form) k)
    (hk : k = .statement ∨ k = .head) (hs : k.Below s.parent?) (ht : s.truth = false) :
    Gives (fun _ => False) s.Holds (n.reduce o) (K.Reduced I J drop o k n) := by
  induction n using Node.reduceInduct o generalizing k s with
  | unmarked form span hm ihParts =>
    cases hn with
    | expression hne hn =>
      obtain rfl := hk.resolve_left hne
      refine (gives_expression hI hd hn (.inr (.inr rfl)) rfl).narrow fun c hc => ?_
      exact hc.1.trans ht
    | statement hform _ hparts =>
      have hsurface : o.hoist.surfaceForm span form = form := by
        cases form <;> first | rfl | cases hform
      refine gives_reduce (R := K.Reduced I J drop o) hm (fun c hc => hc.1.trans ht)
        (fun j a ha => ?_) fun form' hform' => ?_
      · have hmem := ha
        rw [hsurface] at ha
        have hchild : (s.child form.enclosureKind j.role).truth = decide (j = .condition) := by
          rw [← Form.asksTruth_structured hform ha, ← ht]
          rfl
        have hvalue (hs : j ≠ .statement) (hh : j ≠ .head)
            (hj : j = .expression ∨ j = .condition ∨ j = .head) :
            Gives (fun _ => False) (Inside form.enclosureKind j.role s.Holds) (a.reduce o)
              (K.Reduced I J drop o j a) :=
          (gives_expression hI hd ((hparts j a ha).builtOf hs hh) hj hchild).narrow
            fun c hc => (Setting.holds_child hc).1
        have heffect (hj : j = .statement ∨ j = .head) :
            Gives (fun _ => False) (Inside form.enclosureKind j.role s.Holds) (a.reduce o)
              (K.Reduced I J drop o j a) := by
          refine (ihParts j a hmem (hparts j a ha) hj
            (Category.below_of_mem_parts ha) (hchild.trans ?_)).narrow fun _ => Setting.holds_child
          obtain rfl | rfl := hj <;> rfl
        obtain rfl | rfl | rfl | rfl := Form.category_structured hform ha
        · exact hvalue (by decide) (by decide) (.inl rfl)
        · exact hvalue (by decide) (by decide) (.inr (.inl rfl))
        · exact heffect (.inr rfl)
        · exact heffect (.inl rfl)
      · rw [hsurface] at hform'
        refine ⟨?_, fun n' h => reduced_simplified hI hform hform' h hk⟩
        cases hform' with
        | branch hc hx hy =>
          have hbuilt := hc.built (.inr rfl)
          refine ⟨Rule.evaluable_of_builtOf hbuilt, ?_, ?_, ?_⟩
          · rintro x s rfl
            exact Rule.evaluable_of_builtOf (hbuilt.child rfl (by simp [Form.children]))
          · rintro x s rfl
            exact Rule.evaluable_of_builtOf (hx.settled rfl).value
          · rintro x s rfl
            cases hy with
            | some hy => exact Rule.evaluable_of_builtOf (hy.settled rfl).value
        | loop hc => exact Rule.evaluable_of_builtOf (hc.built (.inr rfl))
        | unary | binary | conditional => cases hform
        | _ => exact trivial
  | declaration l span hl =>
    cases hn with
    | expression _ hn => cases hn.isStatement
    | statement hform => cases hform
  | definitions kind bs span _ =>
    cases hn with
    | expression _ hn => cases hn.isStatement
    | statement hform _ hparts =>
      obtain rfl : kind = .var := by
        cases kind <;> first | rfl | cases hform
      have hbs : ∀ b ∈ bs, ∀ v ∈ b.value,
          v.BuiltOf fun form => form.opensScope = false ∧ o.Sound J form := by
        intro b hb v hv
        refine (hparts .expression v ?_).builtOf (by decide) (by decide)
        exact List.mem_map_of_mem (List.mem_filterMap.2 ⟨b, hb, hv⟩)
      have hvalue (a : Node) (ha : a ∈ assignments? bs) :
          a.BuiltOf fun form => form.opensScope = false ∧ o.Sound J form :=
        builtOf_assignments? (fun _ _ _ => ⟨⟨rfl, fun _ => trivial⟩, rfl, fun hc _ => hJ hc⟩)
          (fun _ _ => ⟨rfl, fun _ => trivial⟩) hbs ha
      refine (gives_reduce_definitions (R := K.Reduced I J drop o .expression)
        fun a ha => ?_).mono ?_
      · exact (gives_expression hI hd (hvalue a ha) (.inl rfl) rfl).narrow fun c hc => hc.1
      · rintro _ ⟨a?, ha, rfl⟩
        exact reduced_placeAssignments hk hs ha

/-- As `gives_reduced`, for a program. -/
theorem gives_program (hI : K.Shares I J) (hd : o.on .booleans = true → K.Drops drop)
    (hJ : o.on .comparisons = true → J.Typical) {body : List Node} {span : Span}
    (hb : ∀ n ∈ body,
      n.Structured (fun form => form.opensScope = false ∧ o.Sound J form) .statement) :
    Gives (fun _ => False) Setting.initial.Holds ((⟨.program body, span⟩ : Node).reduce o) fun n' =>
      ∀ r, K.rel Eq ((⟨.program body, span⟩ : Node).exec I (Node.audit I drop o) r) (n'.run J r) := by
  have hscope (form : Form Node) (h : form.opensScope = false ∧ o.Sound J form) :
      form.opensScope = false := h.1
  have hbelow : Category.statement.Below (Setting.initial.child .other .other).parent? := by
    intro e he
    cases he
  refine gives_reduce (R := K.Reduced I J drop o) rfl (fun c hc => hc.1) (fun j a ha => ?_)
    fun form' hform' => ?_
  · simp only [Hoist.surfaceForm, Form.parts, List.mem_map, Prod.mk.injEq] at ha
    obtain ⟨a, ha, rfl, rfl⟩ := ha
    exact (gives_reduced hI hd hJ (Hoist.structured_surface hscope hb ha) (.inl rfl) hbelow
      rfl).narrow fun _ => Setting.holds_child
  · cases hform' with
    | program hlist =>
      refine ⟨trivial, ?_⟩
      rintro _ rfl r
      rw [Node.exec_statement rfl, Node.run_program]
      have hrel := rel_tidied (r := r) hlist
      rw [Hoist.exec_surface hscope hb] at hrel
      change K.rel Eq (inOrder ((body.map _).map _)) _
      rw [List.map_map]
      exact hrel

end Comparison

end ScriptMinifier
