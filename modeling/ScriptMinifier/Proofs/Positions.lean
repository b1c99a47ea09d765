import Mathlib
import ScriptMinifier.Proofs.Aftermath
import ScriptMinifier.Proofs.Reduce
import ScriptMinifier.Tree.Build

namespace ScriptMinifier

open Pass (Leaves)
open Context (Reroled)

/-- The spans that a form carries itself: those of its bindings or of its properties. -/
def Form.ownSpans {α : Type} : Form α → List Span
  | definitions _ bs _ => bs.map (·.span)
  | object ps => ps.map (·.span)
  | _ => []

@[simp] theorem Form.ownSpans_withHoisted {α : Type} (b : Bool) (form : Form α) :
    (form.withHoisted b).ownSpans = form.ownSpans := by
  cases form <;> rfl

@[simp] theorem Form.ownSpans_map {α β : Type} (f : α → β) (form : Form α) :
    (form.map f).ownSpans = form.ownSpans := by
  cases form with
  | definitions k bs h => simp [map, ownSpans, Binding.map, Function.comp_def]
  | object ps => simp [map, ownSpans, Property.map, Function.comp_def]
  | _ => rfl

/-- Forms that differ in their parts alone have the same spans of their own. -/
theorem Form.Lift.ownSpans {α β : Type} {R : Category → α → β → Prop}
    {L : List α → List β → Prop} {form : Form α} {form' : Form β} (h : form.Lift R L form') :
    form'.ownSpans = form.ownSpans := by
  have hsame {γ δ : Type} {T : γ → δ → Prop} {f : γ → Span} {g : δ → Span}
      (hT : ∀ c d, T c d → g d = f c) {cs : List γ} {ds : List δ} (h : List.Forall₂ T cs ds) :
      ds.map g = cs.map f := by
    induction h with
    | nil => rfl
    | cons h _ ih => rw [List.map_cons, List.map_cons, hT _ _ h, ih]
  cases h with
  | definitions h => exact hsame (fun _ _ hb => by cases hb; rfl) h
  | object h => exact hsame (fun _ _ hp => by cases hp; rfl) h
  | _ => rfl

/-- The spans of a tree: of its nodes, of their bindings and of their properties. -/
def Node.spans (n : Node) : List Span :=
  (n.visited fun _ => true).flatMap fun m => m.span :: m.form.ownSpans

/-- The spans of the tree are in `S`. -/
def Node.Sited (S : Span → Prop) (n : Node) : Prop := ∀ s ∈ n.spans, S s

/-- A span of `S` starts at the position. -/
def Position.Starts (S : Span → Prop) (p : Position) : Prop := ∃ s, S s ∧ p = s.start

variable {S : Span → Prop} {o : Options} {truth : Bool} {span : Span} {n m : Node}

namespace Node

theorem sited_iff {form : Form Node} : (⟨form, span⟩ : Node).Sited S ↔
    S span ∧ (∀ s ∈ form.ownSpans, S s) ∧ ∀ c ∈ form.children, c.Sited S := by
  unfold Sited spans
  rw [visited_eq, if_pos rfl, List.flatMap_cons, List.forall_mem_append, List.forall_mem_cons,
    and_assoc]
  refine and_congr_right fun _ => and_congr_right fun _ => ?_
  simp only [List.flatMap_assoc, List.forall_mem_flatMap, children, form_mk]

/-- A form without spans of its own is sited by its place and its children. -/
theorem sited_of_plain {form : Form Node} (h : form.ownSpans = []) :
    (⟨form, span⟩ : Node).Sited S ↔ S span ∧ ∀ c ∈ form.children, c.Sited S := by
  rw [sited_iff, h]
  simp

theorem Sited.start (h : n.Sited S) : n.span.start.Starts S := by
  obtain ⟨form, span⟩ := n
  exact ⟨span, (sited_iff.1 h).1, rfl⟩

theorem Sited.child {form : Form Node} {c : Node} (h : (⟨form, span⟩ : Node).Sited S)
    (hc : c ∈ form.children) : c.Sited S :=
  (sited_iff.1 h).2.2 c hc

theorem Sited.of_mem_visited {descend : Node → Bool} (h : n.Sited S)
    (hm : m ∈ n.visited descend) : m.Sited S := by
  induction n using Node.induct with
  | h n ih =>
    rw [visited_eq] at hm
    rcases List.mem_cons.1 hm with rfl | hm
    · exact h
    · split at hm
      · obtain ⟨c, hc, hmc⟩ := List.mem_flatMap.1 hm
        obtain ⟨form, s⟩ := n
        exact ih c hc (h.child hc) hmc
      · cases hm

/-- A declaration without its initializers is sited by its place and those of its bindings. -/
theorem sited_bare {kind : DeclarationKind} {bs : List (Binding Node)} {hoisted : Bool}
    (hs : S span) (hbs : ∀ s ∈ bs.map (·.span), S s) :
    (⟨.definitions kind (bs.map Binding.bare) hoisted, span⟩ : Node).Sited S := by
  refine sited_iff.2 ⟨hs, ?_, ?_⟩
  · simpa [Form.ownSpans, Binding.bare] using hbs
  · simp [Form.children, List.filterMap_map, Function.comp_def]

theorem Sited.binding {b : Binding Node} (h : n.Sited S) (hb : b ∈ Hoist.varsOf n) :
    S b.span := by
  obtain ⟨form, span⟩ := n
  cases form with
  | definitions kind bs hoisted =>
    cases kind with
    | var => exact (sited_iff.1 h).2.1 _ (List.mem_map_of_mem hb)
    | const => cases hb
  | _ => cases hb

section Forms

variable {a b c : Node}

@[simp] theorem sited_unary {op : UnaryOperator} :
    (⟨.unary op a, span⟩ : Node).Sited S ↔ S span ∧ a.Sited S :=
  (sited_of_plain rfl).trans (by simp [Form.children])

@[simp] theorem sited_binary {op : BinaryOperator} :
    (⟨.binary op a b, span⟩ : Node).Sited S ↔ S span ∧ a.Sited S ∧ b.Sited S :=
  (sited_of_plain rfl).trans (by simp [Form.children])

@[simp] theorem sited_sequence :
    (⟨.sequence a b, span⟩ : Node).Sited S ↔ S span ∧ a.Sited S ∧ b.Sited S :=
  (sited_of_plain rfl).trans (by simp [Form.children])

@[simp] theorem sited_conditional :
    (⟨.conditional c a b, span⟩ : Node).Sited S ↔ S span ∧ c.Sited S ∧ a.Sited S ∧ b.Sited S :=
  (sited_of_plain rfl).trans (by simp [Form.children])

@[simp] theorem sited_expression :
    (⟨.expression a, span⟩ : Node).Sited S ↔ S span ∧ a.Sited S :=
  (sited_of_plain rfl).trans (by simp [Form.children])

@[simp] theorem sited_exit {kind : ExitKind} :
    (⟨.exit kind (some a), span⟩ : Node).Sited S ↔ S span ∧ a.Sited S :=
  (sited_of_plain rfl).trans (by simp [Form.children])

@[simp] theorem sited_branch {alternative : Option Node} :
    (⟨.branch c a alternative, span⟩ : Node).Sited S ↔
      S span ∧ c.Sited S ∧ a.Sited S ∧ ∀ b ∈ alternative, b.Sited S :=
  (sited_of_plain rfl).trans (by simp [Form.children])

/-- A leaf is sited by its place. -/
theorem sited_leaf {form : Form Node} (ho : form.ownSpans = []) (hc : form.children = []) :
    (⟨form, span⟩ : Node).Sited S ↔ S span := by
  rw [sited_of_plain ho, hc]
  simp

@[simp] theorem sited_empty : (Node.empty span).Sited S ↔ S span := sited_leaf rfl rfl

@[simp] theorem sited_toNode (v : Primitive) : (v.toNode span).Sited S ↔ S span := by
  cases v <;> exact sited_leaf rfl rfl

end Forms

/-- Negating keeps every node where it stands. -/
theorem Sited.negate {b : Bool} (h : n.Sited S) (hm : n.negate b = .ok m) : m.Sited S := by
  induction n using Node.induct generalizing m with
  | h n ih =>
    obtain ⟨form, span⟩ := n
    have hplace : S span := (sited_iff.1 h).1
    have hnot : (not ⟨form, span⟩).Sited S := sited_unary.2 ⟨hplace, h⟩
    cases form with
    | sequence x y =>
      obtain ⟨y', hy, rfl⟩ := negate_sequence hm
      obtain ⟨-, hx, hsy⟩ := sited_sequence.1 h
      have hsecond := ih y (by simp [children, Form.children]) hsy hy
      exact sited_sequence.2 ⟨hplace, hx, hsecond⟩
    | conditional c x y =>
      obtain ⟨x', y', hx, hy, rfl⟩ := negate_conditional hm
      obtain ⟨-, hc, hsx, hsy⟩ := sited_conditional.1 h
      have hyes := ih x (by simp [children, Form.children]) hsx hx
      have hno := ih y (by simp [children, Form.children]) hsy hy
      exact sited_conditional.2 ⟨hplace, hc, hyes, hno⟩
    | binary op x y =>
      obtain ⟨-, hsx, hsy⟩ := sited_binary.1 h
      obtain rfl | ⟨op', -, -, rfl⟩ | ⟨op', x', y', -, -, hx, hy, rfl⟩ := negate_binary hm
      · exact hnot
      · exact sited_binary.2 ⟨hplace, hsx, hsy⟩
      · have hleft := ih x (by simp [children, Form.children]) hsx hx
        have hright := ih y (by simp [children, Form.children]) hsy hy
        exact sited_binary.2 ⟨hplace, hleft, hright⟩
    | unary op x =>
      obtain ⟨rfl, rfl⟩ | rfl := negate_unary hm
      · exact (sited_unary.1 h).2
      · exact hnot
    | _ =>
      first
        | (obtain rfl := Except.ok.inj hm; exact hnot)
        | cases hm

/-- A fault of evaluation names the start of a statement below. -/
theorem Sited.evaluation_fault {f : Fault} (h : n.Sited S) (hf : n.constant? = .error f) :
    f.position.Starts S := by
  induction n using Node.induct with
  | h n ih =>
    obtain ⟨form, span⟩ := n
    cases form with
    | unary op x =>
      have hx := constant?_unary_error hf
      exact ih x (by simp [children, Form.children]) (sited_unary.1 h).2 hx
    | binary op l r =>
      obtain ⟨-, hl, hr⟩ := sited_binary.1 h
      rcases constant?_binary_error hf with hf | hf
      · exact ih l (by simp [children, Form.children]) hl hf
      · exact ih r (by simp [children, Form.children]) hr hf
    | conditional c a b =>
      obtain ⟨-, hc, ha, hb⟩ := sited_conditional.1 h
      rcases constant?_conditional_error hf with hf | hf | hf
      · exact ih c (by simp [children, Form.children]) hc hf
      · exact ih a (by simp [children, Form.children]) ha hf
      · exact ih b (by simp [children, Form.children]) hb hf
    | _ =>
      first
        | (obtain rfl := Except.error.inj hf; exact h.start)
        | cases hf

/-- A fault of negation names the start of a statement below. -/
theorem Sited.negation_fault {b : Bool} {f : Fault} (h : n.Sited S)
    (hf : n.negate b = .error f) : f.position.Starts S := by
  induction n using Node.induct with
  | h n ih =>
    obtain ⟨form, span⟩ := n
    cases form with
    | sequence x y =>
      have hy := negate_sequence_error hf
      exact ih y (by simp [children, Form.children]) (sited_sequence.1 h).2.2 hy
    | conditional c x y =>
      obtain ⟨-, -, hsx, hsy⟩ := sited_conditional.1 h
      rcases negate_conditional_error hf with hf | hf
      · exact ih x (by simp [children, Form.children]) hsx hf
      · exact ih y (by simp [children, Form.children]) hsy hf
    | binary op x y =>
      obtain ⟨-, hsx, hsy⟩ := sited_binary.1 h
      rcases negate_binary_error hf with hf | hf
      · exact ih x (by simp [children, Form.children]) hsx hf
      · exact ih y (by simp [children, Form.children]) hsy hf
    | unary op x => cases op <;> cases hf
    | _ =>
      first
        | (obtain rfl := Except.error.inj hf; exact h.start)
        | cases hf

theorem Sited.evaluable (h : n.Sited S) :
    Rule.Evaluable (fun f => f.position.Starts S) n :=
  ⟨fun _ hf => h.evaluation_fault hf, fun _ _ hf => h.negation_fault hf⟩

end Node

open Node (sited_iff)

namespace Rule

variable {form : Form Node}

theorem sited_folded (h : n.Sited S) : (o.folded n).Sited S := by
  obtain ⟨form, span⟩ := n
  unfold Options.folded
  split
  · exact (Node.sited_toNode _).2 (sited_iff.1 h).1
  · exact h

theorem sited_shortenBoolean (h : n.Sited S) : (shortenBoolean o n).Sited S := by
  unfold shortenBoolean
  split
  · rename_i b s
    have hplace : S s := (sited_iff.1 h).1
    split
    · exact Node.sited_unary.2 ⟨hplace, (Node.sited_leaf rfl rfl).2 hplace⟩
    · exact h
  · exact h

theorem sited_truthLiteral (hs : S span) (b : Bool) : (truthLiteral o b span).Sited S :=
  sited_shortenBoolean ((Node.sited_toNode (.boolean b)).2 hs)

theorem Chosen.sited {c a b : Node} (h : Chosen o c a b span m)
    (hn : (⟨.conditional c a b, span⟩ : Node).Sited S) : m.Sited S := by
  obtain ⟨hs, hc, ha, hb⟩ := Node.sited_conditional.1 hn
  cases h with
  | known =>
    split
    · exact ha
    · exact hb
  | upright => exact hn
  | reversed _ _ hnegate => exact Node.sited_conditional.2 ⟨hs, hc.negate hnegate, hb, ha⟩

theorem Prefixed.sited {op : UnaryOperator} {x : Node} (h : Prefixed o truth op x span m)
    (hn : (⟨.unary op x, span⟩ : Node).Sited S) : m.Sited S := by
  obtain ⟨hs, hx⟩ := Node.sited_unary.1 hn
  cases h with
  | unwrapped _ _ _ hinner =>
    subst hinner
    exact (Node.sited_unary.1 hx).2
  | named => exact sited_truthLiteral hs true
  | folded => exact sited_shortenBoolean (sited_folded hn)

theorem Combined.sited {op : BinaryOperator} {l r : Node} (h : Combined o truth op l r span m)
    (hn : (⟨.binary op l r, span⟩ : Node).Sited S) : m.Sited S := by
  obtain ⟨hs, hl, hr⟩ := Node.sited_binary.1 hn
  cases h with
  | decided => exact sited_truthLiteral hs _
  | right => exact sited_shortenBoolean hr
  | left => exact sited_shortenBoolean hl
  | folded => exact sited_shortenBoolean (sited_folded (Node.sited_binary.2 ⟨hs, hl, hr⟩))

theorem Merged.sited {c body : Node} {alternative : Option Node}
    (h : Merged o truth c body alternative span m)
    (hn : (⟨.branch c body alternative, span⟩ : Node).Sited S) : m.Sited S := by
  obtain ⟨hs, hc, hb, ha⟩ := Node.sited_branch.1 hn
  cases h with
  | both hbody halt h =>
    subst hbody halt
    have hyes := (Node.sited_expression.1 hb).2
    have hno := (Node.sited_expression.1 (ha _ rfl)).2
    exact Node.sited_expression.2 ⟨hs, h.sited (Node.sited_conditional.2 ⟨hs, hc, hyes, hno⟩)⟩
  | whenTrue hbody _ h =>
    subst hbody
    have hyes := (Node.sited_expression.1 hb).2
    exact Node.sited_expression.2 ⟨hs, h.sited (Node.sited_binary.2 ⟨hs, hc, hyes⟩)⟩
  | whenFalse _ halt h =>
    subst halt
    have hno := (Node.sited_expression.1 (ha _ rfl)).2
    exact Node.sited_expression.2 ⟨hs, h.sited (Node.sited_binary.2 ⟨hs, hc, hno⟩)⟩
  | exits hbody halt h =>
    subst hbody halt
    have hyes := (Node.sited_exit.1 hb).2
    have hno := (Node.sited_exit.1 (ha _ rfl)).2
    exact Node.sited_exit.2 ⟨hs, h.sited (Node.sited_conditional.2 ⟨hs, hc, hyes, hno⟩)⟩
  | same => exact hn

theorem Branched.sited {c body : Node} {alternative : Option Node}
    (h : Branched o truth c body alternative span m)
    (hn : (⟨.branch c body alternative, span⟩ : Node).Sited S) : m.Sited S := by
  obtain ⟨hs, hc, hb, ha⟩ := Node.sited_branch.1 hn
  have helse : (alternative.getD (.empty span)).Sited S := by
    cases alternative with
    | none => exact Node.sited_empty.2 hs
    | some a => exact ha a rfl
  cases h with
  | known =>
    split
    · exact hb
    · exact helse
  | merged _ _ hswap h =>
    unfold swapNegated at hswap
    split at hswap
    · cases hswap
      have hoperand := (Node.sited_unary.1 hc).2
      exact h.sited (Node.sited_branch.2 ⟨hs, hoperand, helse, by simpa using hb⟩)
    · cases hswap
      exact h.sited hn
  | off => exact hn

theorem Looped.sited {kind : LoopKind} {c body : Node} (h : Looped o kind c body span m)
    (hn : (⟨.loop kind c body, span⟩ : Node).Sited S) : m.Sited S := by
  obtain ⟨hs, hparts⟩ := (Node.sited_of_plain rfl).1 hn
  cases h with
  | forever =>
    have hbody : body.Sited S := hparts body (by cases kind <;> simp [Form.children])
    exact (Node.sited_of_plain rfl).2 ⟨hs, by simpa [Form.children] using hbody⟩
  | never => exact Node.sited_empty.2 hs
  | same => exact hn

/-- What a form becomes stands where the form and its parts stood. -/
theorem sited_simplified (h : Simplified o truth span form m)
    (hn : (⟨form, span⟩ : Node).Sited S) : m.Sited S := by
  have hs : S span := (sited_iff.1 hn).1
  cases form with
  | debugger =>
    subst h
    split
    · exact Node.sited_empty.2 hs
    · exact hn
  | labeled label body =>
    subst h
    split
    · exact hn.child (List.mem_singleton_self body)
    · exact hn
  | block body =>
    obtain ⟨a, rfl, rfl⟩ | rfl := simplified_block h
    · exact hn.child (List.mem_singleton_self m)
    · exact hn
  | branch c body alternative => exact Branched.sited h hn
  | loop kind c body => exact Looped.sited h hn
  | forLoop init c step body =>
    subst h
    refine (Node.sited_of_plain rfl).2 ⟨hs, fun a ha => hn.child ?_⟩
    simp only [Form.children, List.mem_append, Option.mem_toList, Option.filter_eq_some_iff,
      List.mem_singleton] at ha ⊢
    tauto
  | boolean b =>
    subst h
    exact sited_truthLiteral hs b
  | unary op x => exact Prefixed.sited h hn
  | binary op l r => exact Combined.sited h hn
  | conditional c a b => exact Chosen.sited h hn
  | index subject property =>
    subst h
    have hsubject : subject.Sited S := hn.child (by simp [Form.children])
    unfold index
    split
    · split
      · exact (Node.sited_of_plain rfl).2 ⟨hs, by simpa [Form.children] using hsubject⟩
      · exact hn
    · exact hn
  | _ =>
    subst h
    exact hn

/-- Where a rule ends in a fault, the fault names the start of a statement below. -/
theorem tests_sited (hn : (⟨form, span⟩ : Node).Sited S) :
    Tests (Evaluable fun f => f.position.Starts S) form := by
  cases form with
  | branch c body alternative =>
    obtain ⟨-, hc, hb, ha⟩ := Node.sited_branch.1 hn
    refine ⟨hc.evaluable, ?_, ?_, ?_⟩
    · rintro x s rfl
      exact (Node.sited_unary.1 hc).2.evaluable
    · rintro x s rfl
      exact (Node.sited_expression.1 hb).2.evaluable
    · rintro x s rfl
      exact (Node.sited_expression.1 (ha _ rfl)).2.evaluable
  | loop kind c body =>
    have hc : c.Sited S := hn.child (by cases kind <;> simp [Form.children])
    exact hc.evaluable
  | conditional c a b => exact (Node.sited_conditional.1 hn).2.1.evaluable
  | unary op x => exact (Node.sited_unary.1 hn).2.evaluable
  | binary op l r =>
    obtain ⟨-, hl, hr⟩ := Node.sited_binary.1 hn
    exact ⟨hl.evaluable, hr.evaluable⟩
  | _ => trivial

/-- A rule leaves what stands where the form and its parts stood. -/
theorem leaves_simplify {D : Context → Prop} (hD : ∀ c, D c → c.onlyTruthMatters = truth)
    (hn : (⟨form, span⟩ : Node).Sited S) :
    Leaves D (Position.Starts S) (simplify o form span) (Node.Sited S) := by
  have hsimplify : Leaves D (Position.Starts S) (simplify o form span)
      (Simplified o truth span form) :=
    judge_simplify (Leaves.grounded hD) hn.start (fun _ hc => (hn.child hc).start) (tests_sited hn)
  exact Leaves.compositional.mono hsimplify fun _ hm => sited_simplified hm hn

theorem sited_placeAssignments {parent? : Option Enclosure} {bs : List (Binding Node)}
    {a? : Option Node} (hs : S span) (hbs : ∀ b ∈ bs, S b.span) (ha : ∀ a ∈ a?, a.Sited S) :
    (placeAssignments parent? bs a? span).Sited S := by
  unfold placeAssignments
  split
  · exact ha _ rfl
  · split
    · exact Node.sited_empty.2 hs
    · exact (Node.sited_leaf rfl rfl).2 (hbs _ List.mem_cons_self)
  · exact ha _ rfl
  · exact Node.sited_expression.2 ⟨hs, ha _ rfl⟩
  · exact Node.sited_empty.2 hs

end Rule

namespace Statements

theorem sited_survivors (h : n.Sited S) : ∀ d ∈ survivors n, d.Sited S := by
  apply forall_survivors
  · intro kind bs hoisted s hm
    obtain ⟨hs, hown, -⟩ := sited_iff.1 (h.of_mem_visited hm)
    exact Node.sited_bare hs hown
  · intro l s hm
    exact h.of_mem_visited hm

/-- Tidying a list copies positions. -/
theorem stable_sited : Stable (Node.Sited S) where
  block h _ hn := h.child hn
  survivors := sited_survivors
  sequence ha hb := by
    obtain ⟨hs, ha⟩ := Node.sited_expression.1 ha
    obtain ⟨-, hb⟩ := Node.sited_expression.1 hb
    exact Node.sited_expression.2 ⟨hs, Node.sited_sequence.2 ⟨hs, ha, hb⟩⟩
  exit ha hv := by
    obtain ⟨hs, ha⟩ := Node.sited_expression.1 ha
    obtain ⟨hspan, hv⟩ := Node.sited_exit.1 hv
    exact Node.sited_exit.2 ⟨hspan, Node.sited_sequence.2 ⟨hs, ha, hv⟩⟩

/-- Tidying leaves the reduced statements where they stand. -/
theorem leaves_tidy {α : Type} {D : Context → Prop} {step : α → Pass Node} {as : List α}
    (h : ∀ a ∈ as, Leaves D (Position.Starts S) (Pass.inRole .other (step a)) (Node.Sited S)) :
    Leaves D (Position.Starts S) (tidy o step as) (Tidied o (fun _ => Node.Sited S) as) := by
  apply judge_tidy Leaves.compositional h
  intro ms hms n hn d hd
  have hreduced : ∀ m ∈ ms, m.Sited S := by
    intro m hm
    obtain ⟨_, -, hsited⟩ := exists_of_forall₂ hms hm
    exact hsited
  have hflat := stable_sited.flatten hreduced n hn
  exact .warn (sited_survivors hflat d hd).start

end Statements

/-- Where reduced parts are put together, all stands where the form and its parts stood. -/
theorem Form.Lift.sited {form form' : Form Node}
    (h : form.Lift (fun _ _ => Node.Sited S) (Statements.Tidied o fun _ => Node.Sited S) form')
    (hs : S span) (hown : ∀ s ∈ form.ownSpans, S s) : (⟨form', span⟩ : Node).Sited S := by
  refine sited_iff.2 ⟨hs, h.ownSpans ▸ hown, fun a ha => ?_⟩
  obtain ⟨k, hk⟩ := Form.exists_part ha
  exact h.forall_parts (P := fun _ => Node.Sited S) (fun _ _ _ h => h)
    (fun _ _ hbs => Statements.stable_sited.of_tidied hbs fun _ _ h => h) k a hk

namespace Hoist

variable {h : Hoist} {body : List Node} {b : Binding Node}

theorem sited_mark (hn : n.Sited S) : (h.mark n).Sited S := by
  induction n using Node.induct with
  | h n ih =>
    obtain ⟨form, span⟩ := n
    obtain ⟨hs, hown, hc⟩ := sited_iff.1 hn
    rw [mark_mk, sited_iff, Form.ownSpans_withHoisted, Form.children_withHoisted]
    split
    · refine ⟨hs, by simpa using hown, ?_⟩
      rw [Form.children_map]
      exact List.forall_mem_map.2 fun c hmem => ih c hmem (hc c hmem)
    · exact ⟨hs, hown, hc⟩

theorem eq_or_mem_of_mem_insert {bs : List (Binding Node)} {c : Binding Node}
    (hb : b ∈ insert bs c) : b = c ∨ b ∈ bs := by
  induction bs with
  | nil => exact .inl (List.mem_singleton.1 hb)
  | cons d bs ih =>
    rw [insert] at hb
    split at hb
    · exact (List.mem_cons.1 hb).imp_right (List.mem_cons_of_mem d)
    · rcases List.mem_cons.1 hb with rfl | hb
      · exact .inr List.mem_cons_self
      · exact (ih hb).imp_right (List.mem_cons_of_mem d)

theorem mem_or_mem_of_mem_foldl {bs cs : List (Binding Node)} (hb : b ∈ bs.foldl insert cs) :
    b ∈ bs ∨ b ∈ cs := by
  induction bs generalizing cs with
  | nil => exact .inr hb
  | cons c bs ih =>
    rcases ih hb with hb | hb
    · exact .inl (List.mem_cons_of_mem c hb)
    · rcases eq_or_mem_of_mem_insert hb with rfl | hb
      · exact .inl List.mem_cons_self
      · exact .inr hb

/-- A hoisted variable was bound below. -/
theorem exists_of_mem_varsIn (hb : b ∈ h.varsIn body) : ∃ m ∈ reach body, b ∈ varsOf m := by
  rw [varsIn] at hb
  split at hb
  · have hbound := (mem_or_mem_of_mem_foldl hb).resolve_right List.not_mem_nil
    exact List.mem_flatMap.1 hbound
  · cases hb

theorem sited_surfaceForm {form : Form Node} (hn : (⟨form, span⟩ : Node).Sited S) :
    (⟨h.surfaceForm span form, span⟩ : Node).Sited S := by
  obtain ⟨hs, hown, hc⟩ := sited_iff.1 hn
  have hreach : ∀ m ∈ reach form.children, m.Sited S := by
    intro m hm
    obtain ⟨c, hcm, hm⟩ := List.mem_flatMap.1 hm
    exact (hc c hcm).of_mem_visited hm
  have hvars : ∀ s ∈ (h.varsIn form.children).map (·.span), S s := by
    intro s hmem
    obtain ⟨b, hb, rfl⟩ := List.mem_map.1 hmem
    obtain ⟨m, hm, hbm⟩ := exists_of_mem_varsIn hb
    exact (hreach m hm).binding hbm
  refine sited_iff.2 ⟨hs, ?_, ?_⟩
  · cases form <;> exact hown
  · exact forall_mem_surfaceForm (Node.sited_bare hs hvars) (fun l s hl => hreach _ hl)
      (fun n hmem => sited_mark (hc n hmem)) fun _ => hc

end Hoist

/-- The assignments of a declaration stand where its bindings stand. -/
theorem Node.Sited.assignments {kind : DeclarationKind} {bs : List (Binding Node)} {hoisted : Bool}
    {a : Node} (hn : (⟨.definitions kind bs hoisted, span⟩ : Node).Sited S)
    (ha : a ∈ assignments? bs) : a.Sited S := by
  obtain ⟨-, hown, hc⟩ := sited_iff.1 hn
  refine of_mem_assignments? (fun b hb v hv => ?_) (fun ha hb => ?_) ha
  · have hplace : S b.span := hown _ (List.mem_map_of_mem hb)
    have hvalue : v.Sited S := hc v (List.mem_filterMap.2 ⟨b, hb, hv⟩)
    have hname : (⟨.identifier b.name, b.span⟩ : Node).Sited S := (sited_leaf rfl rfl).2 hplace
    exact (sited_of_plain rfl).2 ⟨hplace, by simpa [Form.children] using ⟨hname, hvalue⟩⟩
  · rename_i a b
    obtain ⟨form, s⟩ := a
    exact sited_sequence.2 ⟨(sited_iff.1 ha).1, ha, hb⟩

/-- Where all spans of a tree are in `S`, the pass leaves none behind that is not. -/
theorem leaves_reduce (hn : n.Sited S) (c : Context) :
    Leaves (· = c) (Position.Starts S) (n.reduce o) (Node.Sited S) := by
  induction n using Node.reduceInduct o generalizing c with
  | unmarked form span hm ihParts =>
    obtain ⟨hs, -, -⟩ := sited_iff.1 hn
    have hsurface : (⟨o.hoist.surfaceForm span form, span⟩ : Node).Sited S :=
      Hoist.sited_surfaceForm hn
    have hpart (c : Context) (k : Category) (a : Node)
        (ha : (k, a) ∈ (o.hoist.surfaceForm span form).parts) :
        Leaves (Reroled c) (Position.Starts S) (Pass.inRole k.role (a.reduce o)) (Node.Sited S) :=
      .inRole (ihParts k a ha (hsurface.child (Form.mem_children_of_parts ha)) _)
    have htraverse (c : Context) : Leaves (Reroled c) (Position.Starts S)
        ((o.hoist.surfaceForm span form).traverse
          (fun role a => Pass.inRole role (a.reduce o)) (Statements.tidy o (Node.reduce o)))
        ((o.hoist.surfaceForm span form).Lift (fun _ _ => Node.Sited S)
          (Statements.Tidied o fun _ => Node.Sited S)) := by
      apply Leaves.compositional.traverse (hpart c)
      intro body hb
      apply Statements.leaves_tidy
      intro a ha
      exact hpart c .statement a (Form.mem_parts_of_body? hb ha)
    rw [Node.reduce_unmarked hm]
    apply Leaves.within
    apply (htraverse _).bind
    intro form' hform'
    exact Rule.leaves_simplify (fun _ hc => hc.onlyTruthMatters)
      (hform'.sited hs (sited_iff.1 hsurface).2.1)
  | declaration l span hl =>
    rw [Node.reduce_declaration hl]
    exact .within (.pure (Node.sited_empty.2 (sited_iff.1 hn).1))
  | definitions kind bs span ihAssignments =>
    obtain ⟨hs, hown, -⟩ := sited_iff.1 hn
    have hassigned (c : Context) : Leaves (Reroled c) (Position.Starts S)
        ((assignments? bs).mapM fun a => Pass.inRole .other (a.reduce o))
        (Option.Rel (fun _ => Node.Sited S) (assignments? bs)) := by
      apply Leaves.compositional.mapM_option
      intro a ha
      exact .inRole (ihAssignments a ha (hn.assignments ha) _)
    rw [Node.reduce_definitions]
    apply Leaves.within
    apply Leaves.context
    intro _ _
    apply (hassigned _).bind
    intro a? hrel
    apply Leaves.pure
    apply Rule.sited_placeAssignments hs
    · intro b hb
      exact hown _ (List.mem_map_of_mem hb)
    · intro a ha
      obtain ⟨_, -, hsited⟩ := exists_of_rel hrel ha
      exact hsited

/-- Every span of the outcome is a span of the input, and every fault and every warning names the
start of one. -/
theorem minify_positions (o : Options) (n : Node) :
    (∀ m, (minify o n).result = .ok m → ∀ s ∈ m.spans, s ∈ n.spans) ∧
      (∀ f, (minify o n).result = .error f → ∃ s ∈ n.spans, f.position = s.start) ∧
      ∀ w ∈ (minify o n).warnings, ∃ s ∈ n.spans, w.position = s.start := by
  have hn : n.Sited (· ∈ n.spans) := fun _ hs => hs
  obtain ⟨raised, hend, -, hwarnings, hraised⟩ := leaves_reduce (o := o) hn [] .initial rfl
  refine ⟨fun m hm => ?_, fun f hf => ?_, fun w hw => ?_⟩
  · change ((n.reduce o).run .initial).1 = .ok m at hm
    rw [hm] at hend
    exact hend
  · change ((n.reduce o).run .initial).1 = .error f at hf
    rw [hf] at hend
    exact hend
  · change w ∈ ((n.reduce o).run .initial).2.warnings at hw
    rw [hwarnings] at hw
    exact hraised w hw

/-- `if(null)f();var x=1;`, where the `if` is dropped with a warning and the `var` is hoisted. -/
theorem minify_dropped_branch_positions :
    let place (column : UInt32) : Span := Position.span ⟨1, column, 0⟩
    let one : Node := ⟨.number 1, place 20⟩
    let n : Node := ⟨.program [
      ⟨.branch ⟨.null, place 5⟩ ((Build.callStatement "f" []).at 1 10) none, place 2⟩,
      ⟨.definitions .var [⟨"x", some one, place 18⟩] false, place 14⟩], place 1⟩
    let m : Node := ⟨.program [⟨.definitions .var [⟨"x", none, place 18⟩] false, place 1⟩,
      ⟨.expression ⟨.assign .assign ⟨.identifier "x", place 18⟩ one, place 18⟩, place 14⟩], place 1⟩
    let w : Warning := ⟨Finding.conditionAlwaysFalse.template, ⟨1, 5, 0⟩⟩
    (minify .full n).result = .ok m ∧ (∀ s ∈ m.spans, s ∈ n.spans) ∧
      (minify .full n).warnings = [w] ∧ ∃ s ∈ n.spans, w.position = s.start := by
  intro place one n m w
  have hm : (minify .full n).result = .ok m := by cbv
  have hw : (minify .full n).warnings = [w] := by cbv
  obtain ⟨hspans, -, hwarnings⟩ := minify_positions .full n
  exact ⟨hm, hspans m hm, hw, hwarnings w (by rw [hw]; exact List.mem_singleton_self w)⟩

end ScriptMinifier
