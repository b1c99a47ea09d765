import Mathlib
import ScriptMinifier.Proofs.Reduce
import ScriptMinifier.Proofs.ResultType
import ScriptMinifier.Tree.Build

namespace ScriptMinifier

open Pass (Gives)

/-- The literal of a value, with `!0` and `!1` for booleans where they are to be short. -/
def Primitive.written (o : Options) (span : Span) : Primitive → Form Node
  | boolean b =>
    if o.on .booleans then .unary .not ⟨.number (if b then 0.0 else 1.0), span⟩ else .boolean b
  | v => v.literal

/-- What an expression of the value `v` comes to where its value is asked, or its truth alone. -/
def Node.Folds (o : Options) (truth : Bool) (v : Primitive) (m : Node) : Prop :=
  if truth then ∃ w, m.constant? = .ok (some w) ∧ w.truthy = v.truthy
  else m.form = v.written o m.span

variable {o : Options} {truth : Bool} {span : Span} {n m : Node} {u v w : Primitive}

theorem Node.constant?_toNode (v : Primitive) : (v.toNode span).constant? = .ok (some v) := by
  cases v <;> rfl

theorem Node.constant?_of_written (h : m.form = v.written o m.span) :
    m.constant? = .ok (some v) := by
  obtain ⟨form, span⟩ := m
  change form = v.written o span at h
  subst h
  cases v with
  | boolean b =>
    simp only [Primitive.written]
    split
    · rw [constant?_unary_of rfl (u := .number (if b then 0.0 else 1.0)) rfl, Primitive.not_digit]
    · rfl
  | _ => rfl

theorem Node.mayYield_of_written (h : m.form = v.written o m.span) : m.MayYield v := by
  obtain ⟨form, span⟩ := m
  change form = v.written o span at h
  subst h
  cases v with
  | boolean b =>
    simp only [Primitive.written]
    split
    · exact .unary .number (Primitive.not_digit b)
    · exact .boolean
  | _ => constructor

namespace Rule

theorem written_shortenBoolean (v : Primitive) : (shortenBoolean o (v.toNode span)).form =
    v.written o (shortenBoolean o (v.toNode span)).span := by
  cases v with
  | boolean b =>
    simp only [shortenBoolean, Primitive.toNode, Primitive.literal, Primitive.written]
    split <;> rfl
  | _ => rfl

/-- To write a boolean short changes no value. -/
theorem constant?_shortenBoolean (h : n.constant? = .ok (some v)) :
    (shortenBoolean o n).constant? = .ok (some v) := by
  unfold shortenBoolean
  split
  · rename_i b s
    obtain rfl : Primitive.boolean b = v := Option.some.inj (Except.ok.inj h)
    exact Node.constant?_of_written (o := o) (written_shortenBoolean (.boolean b))
  · exact h

end Rule

namespace Node.Folds

/-- Where the truth of the value is that of `v`, and the value is `v` if it is asked. -/
theorem of_shortenBoolean (hw : w.truthy = v.truthy) (hv : truth = false → w = v) :
    (Rule.shortenBoolean o (w.toNode span)).Folds o truth v := by
  cases truth with
  | true => exact ⟨w, Rule.constant?_shortenBoolean (constant?_toNode w), hw⟩
  | false =>
    obtain rfl := hv rfl
    exact Rule.written_shortenBoolean w

theorem of_written (h : m.form = v.written o m.span) : m.Folds o truth v := by
  cases truth with
  | true => exact ⟨v, constant?_of_written h, rfl⟩
  | false => exact h

theorem constant? (h : m.Folds o truth v) : ∃ w, m.constant? = .ok (some w) ∧
    w.truthy = v.truthy ∧ (truth = false → w = v) := by
  cases truth with
  | true =>
    obtain ⟨w, hw, ht⟩ := h
    exact ⟨w, hw, ht, nofun⟩
  | false => exact ⟨v, constant?_of_written h, rfl, fun _ => rfl⟩

end Node.Folds

namespace Rule

/-- What folds to `w` is written so. -/
theorem folds_folded (ho : o.on .constants = true) (hn : n.constant? = .ok (some w))
    (hw : w.truthy = v.truthy) (hv : truth = false → w = v) :
    (shortenBoolean o (o.folded n)).Folds o truth v := by
  rw [Options.folded, Options.value?_of_constant? ho hn]
  exact .of_shortenBoolean hw hv

theorem folds_truthLiteral {b : Bool} (hb : b = v.truthy) :
    (truthLiteral o b span).Folds o true v :=
  .of_shortenBoolean (w := .boolean b) hb nofun

theorem Prefixed.folds (ho : o.on .constants = true) {op : UnaryOperator} {x : Node}
    (h : Prefixed o truth op x span m) (hx : x.Folds o (decide (op = .not)) u)
    (hv : op.eval? u = some v) : m.Folds o truth v := by
  have hop : op.isPure = true := by
    cases op <;> first | rfl | cases hv
  obtain ⟨u', hu', htruth, hvalue⟩ := hx.constant?
  -- Of an operand known by its truth alone only the negation is taken.
  have hsame : op.eval? u' = some v := by
    by_cases hnot : op = .not
    · subst hnot
      rw [← hv]
      exact congrArg (fun t => some (Primitive.boolean !t)) htruth
    · rw [hvalue (by simpa using hnot)]
      exact hv
  cases h with
  | unwrapped ht _ hnot hinner =>
    subst ht hnot hinner
    obtain ⟨w, hw, hu'⟩ := Node.constant?_unary_some hu'
    refine ⟨w, hw, ?_⟩
    obtain rfl := Option.some.inj hu'
    obtain rfl := Option.some.inj hsame
    simp [Primitive.truthy]
  | named ht _ htype =>
    subst ht htype
    obtain rfl := Option.some.inj hsame
    apply folds_truthLiteral
    cases u' <;> rfl
  | folded =>
    have hn : (⟨.unary op x, span⟩ : Node).constant? = .ok (some v) := by
      rw [Node.constant?_unary_of hop hu', hsame]
    exact folds_folded ho hn rfl fun _ => rfl

/-- Equality may be asked loosely of operands that are written in one type. -/
theorem eval?_loosen {op : BinaryOperator} {l r : Node} (hl : l.form = u.written o l.span)
    (hr : r.form = w.written o r.span) : (loosen o op l r).eval? u w = op.eval? u w :=
  eval?_loosen_of fun h =>
    looseEq_of_sameType h (Node.mayYield_of_written hl) (Node.mayYield_of_written hr)

section Operands

variable {op : BinaryOperator} {u' w' : Primitive}

/-- The truth that one operand decides is that of the value. -/
theorem truthy_of_decided {b : Bool} (h : decided? op (some u') (some w') = some b)
    (hu : u'.truthy = u.truthy) (hw : w'.truthy = w.truthy)
    (hsame : op.isLogical = false → u' = u ∧ w' = w) (hv : op.eval? u w = some v) :
    b = v.truthy := by
  cases op with
  | and =>
    obtain rfl := Option.some.inj hv
    simp only [decided?, Option.any_some, hu, hw] at h
    cases ht : u.truthy <;> simp_all
  | or =>
    obtain rfl := Option.some.inj hv
    simp only [decided?, Option.any_some, hu, hw] at h
    cases ht : u.truthy <;> simp_all
  | add =>
    obtain rfl := Option.some.inj hv
    obtain ⟨rfl, rfl⟩ := hsame rfl
    simp only [decided?, Option.any_some, Option.ite_none_right_eq_some, Bool.or_eq_true,
      Bool.and_eq_true, decide_eq_true_eq, Option.some.injEq] at h
    obtain ⟨⟨ht, hs⟩ | ⟨ht, hs⟩, rfl⟩ := h
    · exact (Primitive.truthy_add_left ht hs).symm
    · exact (Primitive.truthy_add_right ht hs).symm
  | _ => cases h

/-- Where the left operand decides nothing, the value is that of the right one. -/
theorem eq_right_of_undecided (hop : op.isLogical = true)
    (h : decided? op (some u') (some w') = none) (hu : u'.truthy = u.truthy)
    (hv : op.eval? u w = some v) : v = w := by
  cases op with
  | and =>
    obtain rfl := Option.some.inj hv
    simp only [decided?, Option.any_some, hu] at h
    cases ht : u.truthy <;> simp_all
  | or =>
    obtain rfl := Option.some.inj hv
    simp only [decided?, Option.any_some, hu] at h
    cases ht : u.truthy <;> simp_all
  | _ => cases hop

/-- `&&` and `||` of operands of the same truth have the same truth. -/
theorem exists_eval?_of_truthy (hop : op.isLogical = true) (hu : u'.truthy = u.truthy)
    (hw : w'.truthy = w.truthy) (hv : op.eval? u w = some v) :
    ∃ v', op.eval? u' w' = some v' ∧ v'.truthy = v.truthy := by
  cases op with
  | and | or =>
    obtain rfl := Option.some.inj hv
    refine ⟨_, rfl, ?_⟩
    rw [hu]
    split <;> assumption
  | _ => cases hop

end Operands

theorem Combined.folds (ho : o.on .constants = true) {op : BinaryOperator} {l r : Node}
    (h : Combined o truth op l r span m) (hl : l.Folds o (op.isLogical && truth) u)
    (hr : r.Folds o (op.isLogical && truth) w) (hv : op.eval? u w = some v) :
    m.Folds o truth v := by
  obtain ⟨u', hu', hul, hu⟩ := hl.constant?
  obtain ⟨w', hw', hwr, hw⟩ := hr.constant?
  have hvl := Options.value?_of_constant? ho hu'
  have hvr := Options.value?_of_constant? ho hw'
  cases h with
  | decided ht _ hd =>
    subst ht
    rw [hvl, hvr] at hd
    refine folds_truthLiteral (truthy_of_decided hd hul hwr (fun hop => ?_) hv)
    exact ⟨hu (by simp [hop]), hw (by simp [hop])⟩
  | right ht _ hop hd =>
    subst ht
    rw [hvl, hvr] at hd
    obtain rfl := eq_right_of_undecided hop hd hul hv
    exact ⟨w', constant?_shortenBoolean hw', hwr⟩
  | left _ _ _ _ hnone => cases hvl.symm.trans hnone
  | folded =>
    cases hop : op.isLogical with
    | true =>
      obtain ⟨v', hv', ht⟩ := exists_eval?_of_truthy hop hul hwr hv
      have hloose : loosen o op l r = op := by cases op <;> first | rfl | cases hop
      have hn : (⟨.binary (loosen o op l r) l r, span⟩ : Node).constant? = .ok (some v') := by
        rw [hloose, Node.constant?_binary_of hu' hw', hv']
      refine folds_folded ho hn ht fun hasked => ?_
      rw [hu (by simp [hasked]), hw (by simp [hasked])] at hv'
      exact Option.some.inj (hv'.symm.trans hv)
    | false =>
      rw [hop] at hl hr
      obtain rfl := hu (by simp [hop])
      obtain rfl := hw (by simp [hop])
      have hn : (⟨.binary (loosen o op l r) l r, span⟩ : Node).constant? = .ok (some v) := by
        rw [Node.constant?_binary_of hu' hw', eval?_loosen hl hr, hv]
      exact folds_folded ho hn rfl fun _ => rfl

theorem Chosen.folds (ho : o.on .constants = true) (hc : o.on .conditionals = true) {c a b : Node}
    (h : Chosen o c a b span m) (htest : c.Folds o true u)
    (hbranch : (if u.truthy then a else b).Folds o false v) : m.Folds o truth v := by
  obtain ⟨u', hu', htruth, -⟩ := htest.constant?
  have hvalue := Options.value?_of_constant? ho hu'
  cases h with
  | known _ hv =>
    obtain rfl := Option.some.inj (hvalue.symm.trans hv)
    rw [htruth]
    exact .of_written hbranch
  | upright hopen => cases hvalue.symm.trans (hopen hc)
  | reversed _ hopen => cases hvalue.symm.trans hopen

end Rule

/-- Where the operands of a constant expression come to their values, so does the expression. -/
theorem Rule.folds_simplified (ho : o.on .constants = true) (hc : o.on .conditionals = true)
    {form form' : Form Node} {L : List Node → List Node → Prop}
    (hn : (⟨form, span⟩ : Node).constant? = .ok (some v))
    (hform : form.Lift (fun k a b => ∀ v, a.constant? = .ok (some v) →
      b.Folds o (form.enclosureKind.asksTruth k.role truth) v) L form')
    (h : Simplified o truth span form' m) : m.Folds o truth v := by
  cases hform with
  | boolean =>
    obtain rfl := h
    obtain rfl := Option.some.inj (Except.ok.inj hn)
    exact .of_written (written_shortenBoolean (.boolean _))
  | string | number | null | undefined =>
    obtain rfl := h
    obtain rfl := Option.some.inj (Except.ok.inj hn)
    exact .of_written rfl
  | @unary op x x' hx =>
    obtain ⟨u, hu, hv⟩ := Node.constant?_unary_some hn
    have hasked : (Form.unary op x).enclosureKind.asksTruth op.operandCategory.role truth =
        decide (op = .not) := by
      cases op <;> rfl
    exact Prefixed.folds ho h (hasked ▸ hx u hu) hv
  | @binary op l l' r r' hl hr =>
    obtain ⟨u, w, hu, hw, hv⟩ := Node.constant?_binary_some hn
    have hasked : (Form.binary op l r).enclosureKind.asksTruth Category.expression.role truth =
        (op.isLogical && truth) := by
      cases op <;> rfl
    exact Combined.folds ho h (hasked ▸ hl u hu) (hasked ▸ hr w hw) hv
  | conditional htest ha hb =>
    obtain ⟨u, hu, hv⟩ := Node.constant?_conditional_some hn
    refine Chosen.folds ho hc h (htest u hu) ?_
    split at hv
    · rename_i ht
      rw [if_pos ht]
      exact ha v hv
    · rename_i ht
      rw [if_neg ht]
      exact hb v hv
  | _ => cases hn

/-- A constant expression comes to its value, or where only its truth is asked, to its truth. -/
theorem gives_folds (ho : o.on .constants = true) (hc : o.on .conditionals = true)
    (hn : n.constant? = .ok (some v)) (s : Setting) :
    Gives (fun _ => True) s.Holds (n.reduce o) (Node.Folds o s.truth v) := by
  induction n using Node.reduceInduct o generalizing v s with
  | declaration | definitions => cases hn
  | unmarked form span hm ihParts =>
    have hsurface : o.hoist.surfaceForm span form = form := by
      cases form <;> first | rfl | cases hn
    refine gives_reduce (R := fun k a b => ∀ v, a.constant? = .ok (some v) →
        b.Folds o (form.enclosureKind.asksTruth k.role s.truth) v) hm (fun c hc => hc.1)
      (fun k a ha => ?_) fun form' hform' => ⟨Rule.tests_any form', fun m hm => ?_⟩
    · refine Gives.narrow (C := (s.child form.enclosureKind k.role).Holds) ?_
        fun _ => Setting.holds_child
      by_cases ha' : ∃ w, a.constant? = .ok (some w)
      · obtain ⟨w, hw⟩ := ha'
        refine (ihParts k a ha hw _).mono fun b hb v hv => ?_
        obtain rfl := Option.some.inj (Except.ok.inj (hw.symm.trans hv))
        exact hb
      · exact (gives_reduce_any a _).mono fun b _ v hv => absurd ⟨v, hv⟩ ha'
    · rw [hsurface] at hform'
      exact Rule.folds_simplified ho hc hn hform' hm

/-- A constant expression becomes the literal of its value, whatever happens to its operands on the
way. -/
theorem minify_constant (o : Options) (ho : o.on .constants = true)
    (hc : o.on .conditionals = true) (n m : Node) (v : Primitive)
    (hv : n.constant? = .ok (some v)) (hm : (minify o n).result = .ok m) :
    m.form = v.written o m.span :=
  (gives_folds ho hc hv .initial).of_run Setting.holds_initial hm

/-- `null?f():typeof null==="object"`, where the branch that is not taken calls a function and the
comparison is loosened before it is folded. -/
theorem minify_choice_constant :
    let o := Options.full.set .booleans false
    let n := Build.conditional Build.null (Build.call "f" [])
      (Build.binary .strictEq (Build.unary .typeOf Build.null) (Build.string "object"))
    let m := Build.boolean true
    n.constant? = .ok (some (.boolean true)) ∧ (minify o n).result = .ok m ∧
      m.form = (Primitive.boolean true).written o m.span := by
  intro o n m
  have hv : n.constant? = .ok (some (.boolean true)) := by cbv
  have hm : (minify o n).result = .ok m := by cbv
  exact ⟨hv, hm, minify_constant o rfl rfl n m _ hv hm⟩

end ScriptMinifier
