import ScriptMinifier.Proofs.Rules
import ScriptMinifier.Tree.Build

namespace ScriptMinifier

open Primitive

/-- The forms whose parts tell the value. -/
def Form.isTransparent {α : Type} : Form α → Bool
  | string _ | number _ | boolean _ | null | undefined | binary .. | conditional .. | sequence ..
  | assign .assign .. => true
  | unary op _ => op.isPure || op = .delete
  | _ => false

/-- `n.MayYield v`: there are values for the expressions in `n` whose value is not told by their
parts with which `n` evaluates to `v`. Nothing is assumed of `void`, so it is one of them. -/
inductive Node.MayYield : Node → Primitive → Prop
  | string {s : String} {span : Span} : MayYield ⟨.string s, span⟩ (string s)
  | number {x : Float} {span : Span} : MayYield ⟨.number x, span⟩ (number x)
  | boolean {b : Bool} {span : Span} : MayYield ⟨.boolean b, span⟩ (boolean b)
  | null {span : Span} : MayYield ⟨.null, span⟩ null
  | undefined {span : Span} : MayYield ⟨.undefined, span⟩ undefined
  | unary {op : UnaryOperator} {x : Node} {span : Span} {u v : Primitive} :
    x.MayYield u → op.eval? u = some v → MayYield ⟨.unary op x, span⟩ v
  | delete {x : Node} {span : Span} {b : Bool} : MayYield ⟨.unary .delete x, span⟩ (boolean b)
  | and_right {l r : Node} {span : Span} {u v : Primitive} :
    l.MayYield u → u.truthy = true → r.MayYield v → MayYield ⟨.binary .and l r, span⟩ v
  | and_left {l r : Node} {span : Span} {v : Primitive} :
    l.MayYield v → v.truthy = false → MayYield ⟨.binary .and l r, span⟩ v
  | or_right {l r : Node} {span : Span} {u v : Primitive} :
    l.MayYield u → u.truthy = false → r.MayYield v → MayYield ⟨.binary .or l r, span⟩ v
  | or_left {l r : Node} {span : Span} {v : Primitive} :
    l.MayYield v → v.truthy = true → MayYield ⟨.binary .or l r, span⟩ v
  | binary {op : BinaryOperator} {l r : Node} {span : Span} {u w v : Primitive} :
    op.isLogical = false → l.MayYield u → r.MayYield w → op.eval? u w = some v →
      MayYield ⟨.binary op l r, span⟩ v
  /-- The answers of `in` and `instanceof`. -/
  | word {op : BinaryOperator} {l r : Node} {span : Span} {b : Bool} :
    op.isWord = true → MayYield ⟨.binary op l r, span⟩ (boolean b)
  | consequent {c x y : Node} {span : Span} {u v : Primitive} :
    c.MayYield u → u.truthy = true → x.MayYield v → MayYield ⟨.conditional c x y, span⟩ v
  | alternative {c x y : Node} {span : Span} {u v : Primitive} :
    c.MayYield u → u.truthy = false → y.MayYield v → MayYield ⟨.conditional c x y, span⟩ v
  | sequence {x y : Node} {span : Span} {v : Primitive} :
    y.MayYield v → MayYield ⟨.sequence x y, span⟩ v
  | assign {x y : Node} {span : Span} {v : Primitive} :
    y.MayYield v → MayYield ⟨.assign .assign x y, span⟩ v
  | other {n : Node} {v : Primitive} : n.form.isTransparent = false → MayYield n v

theorem Node.isTransparent_of_yields {n : Node}
    (h : n.yieldsBoolean = true ∨ n.yieldsString = true) : n.form.isTransparent = true := by
  obtain ⟨form, span⟩ := n
  cases form with
  | unary op x =>
    have hop : (op = .not ∨ op = .delete) ∨ op = .typeOf := by
      simpa [yieldsBoolean, yieldsString] using h
    rcases hop with (rfl | rfl) | rfl <;> rfl
  | assign op x y => cases op <;> first | rfl | (rcases h with h | h <;> cases h)
  | _ => first | rfl | (rcases h with h | h <;> cases h)

namespace Node.MayYield

variable {n : Node} {v : Primitive}

theorem isBoolean (h : n.MayYield v) (hn : n.yieldsBoolean = true) : ∃ b, v = .boolean b := by
  induction h with
  | boolean | delete | word => exact ⟨_, rfl⟩
  | @unary op x span u v _ hv _ =>
    obtain rfl | rfl : op = .not ∨ op = .delete := by simpa [yieldsBoolean] using hn
    · exact ⟨_, (Option.some.inj hv).symm⟩
    · cases hv
  | @binary op l r span u w v hlog _ _ hv _ _ =>
    have hop : op.isTest = true := by simpa [yieldsBoolean, hlog] using hn
    cases op <;> first
      | exact ⟨_, (Option.some.inj hv).symm⟩
      | (cases hop; done)
      | cases hv
  | and_right _ _ _ _ ih | or_right _ _ _ _ ih =>
    have hlr := hn
    simp only [yieldsBoolean, Bool.or_eq_true, Bool.and_eq_true] at hlr
    exact ih (hlr.resolve_left (by decide)).2
  | and_left _ _ ih | or_left _ _ ih =>
    have hlr := hn
    simp only [yieldsBoolean, Bool.or_eq_true, Bool.and_eq_true] at hlr
    exact ih (hlr.resolve_left (by decide)).1.2
  | consequent _ _ _ _ ih => exact ih (Bool.and_eq_true_iff.1 hn).1
  | alternative _ _ _ _ ih => exact ih (Bool.and_eq_true_iff.1 hn).2
  | sequence _ ih | assign _ ih => exact ih hn
  | other hform => simp [isTransparent_of_yields (.inl hn)] at hform
  | _ => cases hn

theorem isString (h : n.MayYield v) (hn : n.yieldsString = true) : ∃ s, v = .string s := by
  induction h with
  | string => exact ⟨_, rfl⟩
  | @unary op x span u v _ hv _ =>
    obtain rfl : op = .typeOf := by simpa [yieldsString] using hn
    exact ⟨_, (Option.some.inj hv).symm⟩
  | @binary op l r span u w v _ _ _ hv ihl ihr =>
    obtain rfl : op = .add := by cases op <;> first | rfl | cases hn
    obtain rfl := Option.some.inj hv
    rcases Bool.or_eq_true_iff.1 hn with hl | hr
    · obtain ⟨s, rfl⟩ := ihl hl
      exact ⟨_, rfl⟩
    · obtain ⟨s, rfl⟩ := ihr hr
      cases u <;> exact ⟨_, rfl⟩
  | @word op l r span b hop => cases op <;> first | (cases hop; done) | cases hn
  | assign _ ih => exact ih hn
  | other hform => simp [isTransparent_of_yields (.inr hn)] at hform
  | _ => cases hn

end Node.MayYield

namespace Rule

variable {o : Options} {op : BinaryOperator} {l r : Node} {v w : Primitive}

theorem eval?_loosen_of (h : sameType l r = true → v.looseEq w = v.strictEq w) :
    (loosen o op l r).eval? v w = op.eval? v w := by
  unfold loosen
  split
  · split
    · rename_i hon
      have hequal := h (Bool.and_eq_true_iff.1 hon).2
      simp only [BinaryOperator.eval?, hequal]
    · rfl
  · split
    · rename_i hon
      have hequal := h (Bool.and_eq_true_iff.1 hon).2
      simp only [BinaryOperator.eval?, hequal]
    · rfl
  · rfl

/-- On the values of operands of one type both equalities agree. -/
theorem looseEq_of_sameType (h : sameType l r = true) (hv : l.MayYield v) (hw : r.MayYield w) :
    v.looseEq w = v.strictEq w := by
  obtain ⟨hl, hr⟩ | ⟨hl, hr⟩ : (l.yieldsString = true ∧ r.yieldsString = true) ∨
      (l.yieldsBoolean = true ∧ r.yieldsBoolean = true) := by
    simpa [sameType] using h
  · obtain ⟨a, rfl⟩ := hv.isString hl
    obtain ⟨b, rfl⟩ := hw.isString hr
    exact looseEq_string a b
  · obtain ⟨a, rfl⟩ := hv.isBoolean hl
    obtain ⟨b, rfl⟩ := hw.isBoolean hr
    exact looseEq_boolean a b

end Rule

/-- What surely yields a boolean or a string yields one whenever it yields a value, and an equality
that is asked loosely answers as before for all values that its operands may yield. -/
theorem resultType_sound :
    (∀ (e : Node) (v : Primitive), e.MayYield v →
      (e.yieldsBoolean = true → ∃ b, v = .boolean b) ∧
      (e.yieldsString = true → ∃ s, v = .string s)) ∧
    ∀ (o : Options) (op : BinaryOperator) (l r : Node) (v w : Primitive),
      l.MayYield v → r.MayYield w → (Rule.loosen o op l r).eval? v w = op.eval? v w :=
  ⟨fun _ _ h => ⟨h.isBoolean, h.isString⟩, fun _ _ _ _ _ _ hv hw =>
    Rule.eval?_loosen_of fun h => Rule.looseEq_of_sameType h hv hw⟩

/-- `typeof a === (b = typeof c)` is asked loosely, and `!a && delete b` yields a boolean. -/
theorem resultType_sound_typeof :
    let l := Build.unary .typeOf (Build.identifier "a")
    let r := Build.assign (Build.identifier "b") (Build.unary .typeOf (Build.identifier "c"))
    let e := Build.binary .and (Build.not (Build.identifier "a"))
      (Build.unary .delete (Build.identifier "b"))
    (e.MayYield (.boolean true) ∧ ∃ b, Primitive.boolean true = .boolean b) ∧
    (r.MayYield (.string "object") ∧ ∃ s, Primitive.string "object" = .string s) ∧
    Rule.loosen .full .strictEq l r = .eq ∧
    BinaryOperator.eq.eval? (.string "number") (.string "object") =
      BinaryOperator.strictEq.eval? (.string "number") (.string "object") := by
  intro l r e
  have hl : l.MayYield (.string "number") := .unary (u := .number 0) (.other rfl) rfl
  have hr : r.MayYield (.string "object") := .assign (.unary (u := .null) (.other rfl) rfl)
  have hnot : (Build.not (Build.identifier "a")).MayYield (.boolean true) :=
    .unary (u := .undefined) (.other rfl) rfl
  have he : e.MayYield (.boolean true) := .and_right hnot rfl .delete
  exact ⟨⟨he, (resultType_sound.1 e _ he).1 rfl⟩, ⟨hr, (resultType_sound.1 r _ hr).2 rfl⟩, rfl,
    resultType_sound.2 .full .strictEq l r _ _ hl hr⟩

end ScriptMinifier
