import ScriptMinifier.Proofs.Evaluation
import ScriptMinifier.Proofs.WellFormed

/-!
Evaluation under audit. Where only the truth of an expression is asked, the rules discard an operand
that cannot change it, with whatever the operand does. `Node.audit` evaluates an expression as it
stands and hands each operand that is discarded to `drop`, so that the effects of these operands can
be told from all others.

`Comparison` relates computations of two monads. `gives_audited` is the one statement about the
pass: what an expression is reduced to does what the audit of the expression does, for every
comparison that agrees with the way operands are dropped.
-/

namespace ScriptMinifier

open Pass (Gives Inside)

/-- The contexts in which the truth of the node at hand is asked alone, or those in which its value
is. -/
def Asks (truth : Bool) (c : Context) : Prop := c.testsTruth = truth

theorem Asks.inside {truth : Bool} {e : EnclosureKind} {role : Role} {c : Context}
    (h : Inside e role (Asks truth) c) : Asks (e.asksTruth role truth) c := by
  obtain ⟨c₀, ht, rfl⟩ := h
  cases e with
  | logical => exact ht
  | _ => rfl

def Context.asking (truth : Bool) : Context := if truth then [⟨.not, .other⟩] else []

theorem asks_asking (truth : Bool) : Asks truth (Context.asking truth) := by
  cases truth <;> rfl

namespace Node

/-- The value by which folding would replace an expression once it is reduced. -/
def known? (o : Options) (truth : Bool) (n : Node) : Option Primitive :=
  match ((n.reduce o).run ⟨Context.asking truth, []⟩).1 with
  | .ok m => o.value? m
  | .error _ => none

/-- Whether the rules for truth discard the operands of an expression. -/
def discards (o : Options) (truth : Bool) (n : Node) : Bool :=
  o.on .booleans && truth && match n.form with
    | .unary .typeOf _ => true
    | .binary op l r =>
      (Rule.decided? op (l.known? o op.isLogical) (r.known? o op.isLogical)).isSome
    | _ => false

end Node

namespace Form

variable {α β : Type}

/-- The parts of a form, each asked for its truth alone or for its value as the form does it. -/
def asked (truth : Bool) : Form (Bool → β) → Form β
  | conditional c a b => conditional (c true) (a false) (b false)
  | unary .not x => unary .not (x true)
  | binary op l r => binary op (l (op.isLogical && truth)) (r (op.isLogical && truth))
  | form => form.map (· false)

theorem asked_const (truth : Bool) (f : α → β) (form : Form α) :
    (form.map fun a _ => f a).asked truth = form.map f := by
  have h := map_map (· false) (fun a (_ : Bool) => f a) form
  cases form with
  | unary op x => cases op <;> rfl
  | conditional | binary => rfl
  | _ => exact h.symm

end Form

/-- Evaluates an expression of which the truth alone or the value is asked, and hands to `drop` what
the rules discard. -/
def Node.audit {m : Type → Type} [Monad m] (I : Interpretation m)
    (drop : m Primitive → m Primitive) (o : Options) (n : Node) : Bool → m Primitive :=
  fun truth =>
    let form := (n.form.attach.map fun c => audit I drop o c.1).asked truth
    I.layer (if n.discards o truth then form.map drop else form)
termination_by sizeOf n
decreasing_by exact sizeOf_lt_of_mem c.2

theorem Node.audit_eq {m : Type → Type} [Monad m] (I : Interpretation m)
    (drop : m Primitive → m Primitive) (o : Options) (n : Node) (truth : Bool) :
    n.audit I drop o truth =
      let form := (n.form.map (audit I drop o)).asked truth
      I.layer (if n.discards o truth then form.map drop else form) := by
  have h := Form.map_map (audit I drop o) Subtype.val n.form.attach
  rw [Form.attach_map_val] at h
  rw [audit, h]

/-- When nothing comes of dropping, an audit is an evaluation. -/
theorem Node.audit_id {m : Type → Type} [Monad m] (I : Interpretation m) (o : Options) (n : Node)
    (truth : Bool) : n.audit I id o truth = n.eval I := by
  induction n using Node.induct generalizing truth with
  | h n ih =>
    have hform : n.form.map (audit I id o) = n.form.map fun c _ => c.eval I :=
      Form.map_congr fun c hc => funext (ih c hc)
    rw [audit_eq, eval_eq, hform, Form.asked_const]
    simp only [Form.map_id, ite_self]

theorem Node.audit_unary {m : Type → Type} [Monad m] {I : Interpretation m}
    {drop : m Primitive → m Primitive} {o : Options} {op : UnaryOperator} {x : Node} {span : Span}
    {truth : Bool} : (⟨.unary op x, span⟩ : Node).audit I drop o truth =
      if o.on .booleans && truth && decide (op = .typeOf) then
        I.unary op (drop (x.audit I drop o (decide (op = .not))))
      else I.unary op (x.audit I drop o (decide (op = .not))) := by
  have hd : (⟨.unary op x, span⟩ : Node).discards o truth =
      (o.on .booleans && truth && decide (op = .typeOf)) := by
    cases op <;> rfl
  rw [audit_eq, hd]
  dsimp only
  split
  · cases op <;> rfl
  · cases op <;> rfl

theorem Node.audit_binary {m : Type → Type} [Monad m] {I : Interpretation m}
    {drop : m Primitive → m Primitive} {o : Options} {op : BinaryOperator} {l r : Node}
    {span : Span} {truth : Bool} : (⟨.binary op l r, span⟩ : Node).audit I drop o truth =
      if (⟨.binary op l r, span⟩ : Node).discards o truth then
        I.binary op (drop (l.audit I drop o (op.isLogical && truth)))
          (drop (r.audit I drop o (op.isLogical && truth)))
      else I.binary op (l.audit I drop o (op.isLogical && truth))
        (r.audit I drop o (op.isLogical && truth)) := by
  rw [audit_eq]
  dsimp only
  split <;> rfl

theorem Node.audit_statement {m : Type → Type} [Monad m] {I : Interpretation m}
    {drop : m Primitive → m Primitive} {o : Options} {n : Node} {truth : Bool}
    (hs : n.isStatement = true) : n.audit I drop o truth = pure .undefined := by
  rw [audit_eq]
  obtain ⟨form, span⟩ := n
  cases form <;> first | (dsimp only; split <;> rfl) | cases hs

/-- A way to compare computations of two monads by their results. -/
structure Comparison (m m' : Type → Type) [Monad m] [Monad m'] where
  rel : {α β : Type} → (α → β → Prop) → m α → m' β → Prop
  rel_pure : ∀ {α β : Type} {V : α → β → Prop} {a : α} {b : β}, V a b → rel V (pure a) (pure b)
  rel_bind : ∀ {α β γ δ : Type} {V : α → β → Prop} {W : γ → δ → Prop} {x : m α} {y : m' β}
    {f : α → m γ} {g : β → m' δ}, rel V x y → (∀ a b, V a b → rel W (f a) (g b)) →
      rel W (x >>= f) (y >>= g)
  rel_of_map : ∀ {α β γ : Type} {V : α → γ → Prop} {x : m α} {y : m' β} {f : β → γ},
    rel V x (f <$> y) → rel (fun a b => V a (f b)) x y

theorem Form.enclosureKind_asked {β : Type} (truth : Bool) (form : Form (Bool → β)) :
    (form.asked truth).enclosureKind = form.enclosureKind := by
  cases form with
  | unary op x => cases op <;> rfl
  | _ => rfl

/-- Only `!` asks for the truth of its operand. -/
theorem asksTruth_unary {op : UnaryOperator} {x : Node} {role : Role} {truth : Bool} :
    (Form.unary op x).enclosureKind.asksTruth role truth = decide (op = .not) := by
  cases op <;> rfl

/-- `&&` and `||` ask of their operands what is asked of them. -/
theorem asksTruth_binary {op : BinaryOperator} {l r : Node} {role : Role} {truth : Bool} :
    (Form.binary op l r).enclosureKind.asksTruth role truth = (op.isLogical && truth) := by
  cases op <;> rfl

/-- Two values agree: in their truth, if that is all that is asked. -/
def Agree (truth : Bool) (v w : Primitive) : Prop := if truth then v.truthy = w.truthy else v = w

theorem Agree.refl (truth : Bool) (v : Primitive) : Agree truth v v := by
  cases truth <;> rfl

theorem Agree.truthy {truth : Bool} {v w : Primitive} (h : Agree truth v w) :
    v.truthy = w.truthy := by
  cases truth with
  | true => exact h
  | false => exact congrArg _ h

theorem Agree.eq {v w : Primitive} (h : Agree false v w) : v = w := h

theorem Agree.of_eq {truth : Bool} {v w : Primitive} (h : v = w) : Agree truth v w := by
  rw [h]
  exact .refl truth w

theorem Form.Lift.asked {α β : Type} {R : Category → (Bool → α) → (Bool → β) → Prop}
    {L : List (Bool → α) → List (Bool → β) → Prop} {R' : Category → α → β → Prop}
    {L' : List α → List β → Prop} {form : Form (Bool → α)} {form' : Form (Bool → β)}
    (truth : Bool) (h : form.Lift R L form') (hs : form.isStatement = false)
    (hR : ∀ k x y, R k x y → R' k (x (form.enclosureKind.asksTruth k.role truth))
      (y (form.enclosureKind.asksTruth k.role truth)))
    (hL : ∀ as bs, L as bs → L' (as.map (· false)) (bs.map (· false))) :
    (form.asked truth).Lift R' L' (form'.asked truth) := by
  have hother (hk : form.enclosureKind = .other) :
      (form.map (· false)).Lift R' L' (form'.map (· false)) := by
    refine h.map (fun k x y hxy => ?_) hL
    have := hR k x y hxy
    rwa [hk] at this
  cases h with
  | conditional h₁ h₂ h₃ => exact .conditional (hR _ _ _ h₁) (hR _ _ _ h₂) (hR _ _ _ h₃)
  | @unary op x y h =>
    cases op with
    | not => exact .unary (hR _ _ _ h)
    | _ => exact hother rfl
  | @binary op x x' y y' h₁ h₂ =>
    have hx := hR _ _ _ h₁
    have hy := hR _ _ _ h₂
    cases op <;> exact .binary hx hy
  | _ => first | exact hother rfl | cases hs

namespace Comparison

variable {m m' : Type → Type} [Monad m] [Monad m'] (K : Comparison m m')

/-- What the two interpretations do is related, and `in` and `instanceof` answer alike. -/
structure Shares (I : Interpretation m) (J : Interpretation m') : Prop where
  act : ∀ a vs, K.rel Eq (I.act a vs) (J.act a vs)
  test : I.test = J.test

variable {K} {I : Interpretation m} {J : Interpretation m'} {α β : Type}

variable [LawfulMonad m] [LawfulMonad m']

theorem mono {V W : α → β → Prop} {x : m α} {y : m' β} (h : K.rel V x y)
    (hVW : ∀ a b, V a b → W a b) : K.rel W x y := by
  rw [← bind_pure x, ← bind_pure y]
  exact K.rel_bind h fun a b hab => K.rel_pure (hVW a b hab)

theorem mapM {γ : Type} {f : α → m γ} {g : β → m' γ} {as : List α} {bs : List β}
    (h : List.Forall₂ (fun a b => K.rel Eq (f a) (g b)) as bs) :
    K.rel Eq (as.mapM f) (bs.mapM g) := by
  induction h with
  | nil => exact K.rel_pure rfl
  | cons h _ ih =>
    rw [List.mapM_cons, List.mapM_cons]
    refine K.rel_bind h fun v w hvw => K.rel_bind ih fun vs ws hvs => ?_
    subst hvw hvs
    exact K.rel_pure rfl

variable {truth : Bool} {x y : m Primitive} {x' y' : m' Primitive} {f : Form (m Primitive)}
  {g : Form (m' Primitive)} {R : Category → m Primitive → m' Primitive → Prop}
  {L : List (m Primitive) → List (m' Primitive) → Prop}

theorem Shares.rel_act (hI : K.Shares I J) (a : Action) (vs : List Primitive) :
    K.rel (Agree truth) (I.act a vs) (J.act a vs) :=
  mono (hI.act a vs) fun _ _ => .of_eq

theorem Shares.rel_unary (hI : K.Shares I J) {op : UnaryOperator}
    (h : K.rel (Agree (decide (op = .not))) x x') :
    K.rel (Agree truth) (I.unary op x) (J.unary op x') := by
  refine K.rel_bind h fun v w hvw => ?_
  cases op with
  | not =>
    refine K.rel_pure (.of_eq ?_)
    rw [hvw.truthy]
  | _ =>
    obtain rfl := hvw.eq
    first | exact K.rel_pure (.refl truth _) | exact hI.rel_act _ _

omit [LawfulMonad m] [LawfulMonad m'] in
theorem Shares.rel_binary (hI : K.Shares I J) {op : BinaryOperator}
    (hx : K.rel (Agree (op.isLogical && truth)) x x')
    (hy : K.rel (Agree (op.isLogical && truth)) y y') :
    K.rel (Agree truth) (I.binary op x y) (J.binary op x' y') := by
  have hcombine (v w : Primitive) : I.combine op v w = J.combine op v w := by
    rw [Interpretation.combine, Interpretation.combine, hI.test]
  cases op with
  | and =>
    refine K.rel_bind hx fun v w hvw => ?_
    rw [hvw.truthy]
    split
    · exact hy
    · exact K.rel_pure hvw
  | or =>
    refine K.rel_bind hx fun v w hvw => ?_
    rw [hvw.truthy]
    split
    · exact K.rel_pure hvw
    · exact hy
  | _ =>
    refine K.rel_bind hx fun v w hvw => K.rel_bind hy fun v' w' hvw' => K.rel_pure (.of_eq ?_)
    rw [hvw.eq, hvw'.eq, hcombine]

/-- Forms do related things if their parts do. -/
theorem Shares.rel_layer (hI : K.Shares I J) (h : f.Lift R L g)
    (hR : ∀ k x x', R k x x' → K.rel (Agree (f.enclosureKind.asksTruth k.role truth)) x x') :
    K.rel (Agree truth) (I.layer f) (J.layer g) := by
  have hlist (hk : f.enclosureKind = .other) {xs : List (m Primitive)}
      {ys : List (m' Primitive)} (h : List.Forall₂ (R .expression) xs ys) :
      K.rel Eq (xs.mapM id) (ys.mapM id) := by
    refine mapM (h.imp fun x y hxy => ?_)
    have := hR _ _ _ hxy
    rw [hk] at this
    exact this
  cases h with
  | string | number | boolean | null | undefined => exact K.rel_pure (.refl truth _)
  | identifier | this | function => exact hI.rel_act _ _
  | @unary op x x' h =>
    have hx := hR _ _ _ h
    refine hI.rel_unary ?_
    cases op <;> exact hx
  | update h =>
    refine K.rel_bind (hR _ _ _ h) fun v w hvw => ?_
    obtain rfl := hvw.eq
    exact hI.rel_act _ _
  | @binary op x x' y y' h₁ h₂ =>
    have hx := hR _ _ _ h₁
    have hy := hR _ _ _ h₂
    refine hI.rel_binary ?_ ?_
    · cases op <;> exact hx
    · cases op <;> exact hy
  | assign h₁ h₂ =>
    refine K.rel_bind (hR _ _ _ h₁) fun v w hvw => K.rel_bind (hR _ _ _ h₂) fun v' w' hvw' => ?_
    obtain rfl := hvw.eq
    obtain rfl := hvw'.eq
    exact hI.rel_act _ _
  | conditional h₁ h₂ h₃ =>
    refine K.rel_bind (hR _ _ _ h₁) fun v w hvw => ?_
    rw [hvw.truthy]
    split
    · exact mono (hR _ _ _ h₂) fun _ _ h => .of_eq h.eq
    · exact mono (hR _ _ _ h₃) fun _ _ h => .of_eq h.eq
  | sequence h₁ h₂ =>
    exact K.rel_bind (hR _ _ _ h₁) fun _ _ _ => mono (hR _ _ _ h₂) fun _ _ h => .of_eq h.eq
  | call h₁ h₂ | construct h₁ h₂ =>
    refine K.rel_bind (hR _ _ _ h₁) fun v w hvw => K.rel_bind (hlist rfl h₂) fun vs ws hvs => ?_
    obtain rfl := hvw.eq
    subst hvs
    exact hI.rel_act _ _
  | member h =>
    refine K.rel_bind (hR _ _ _ h) fun v w hvw => ?_
    obtain rfl := hvw.eq
    exact hI.rel_act _ _
  | index h₁ h₂ =>
    refine K.rel_bind (hR _ _ _ h₁) fun v w hvw => K.rel_bind (hR _ _ _ h₂) fun v' w' hvw' => ?_
    obtain rfl := hvw.eq
    obtain rfl := hvw'.eq
    exact hI.rel_act _ _
  | array h =>
    refine K.rel_bind (hlist rfl h) fun vs ws hvs => ?_
    subst hvs
    exact hI.rel_act _ _
  | @object ps ps' h =>
    have hkeys : (ps.map fun p => (p.kind, p.key)) = ps'.map fun p => (p.kind, p.key) := by
      clear hR hlist
      induction h with
      | nil => rfl
      | cons h _ ih =>
        rw [List.map_cons, List.map_cons, ih]
        cases h
        rfl
    have hvalues : K.rel Eq (ps.mapM (·.value)) (ps'.mapM (·.value)) := by
      refine mapM (h.imp fun p p' hp => ?_)
      cases hp with
      | mk v hv => exact hR _ _ _ hv
    refine K.rel_bind hvalues fun vs ws hvs => ?_
    subst hvs
    rw [hkeys]
    exact hI.rel_act _ _
  | _ => exact K.rel_pure (.refl truth _)

/-- Audits of an expression do related things if dropping does. -/
theorem Shares.rel_audit (hI : K.Shares I J) {drop : m Primitive → m Primitive}
    {drop' : m' Primitive → m' Primitive}
    (hdrop : ∀ x x', K.rel Eq x x' → K.rel Eq (drop x) (drop' x')) (o : Options) (n : Node)
    (truth : Bool) : K.rel Eq (n.audit I drop o truth) (n.audit J drop' o truth) := by
  induction n using Node.induct generalizing truth with
  | h n ih =>
    have hsame : n.form.Lift (fun _ a b => a = b ∧ a ∈ n.children) (fun _ _ => True) n.form :=
      .refl (fun _ a ha => ⟨rfl, ha⟩) fun _ _ => trivial
    have hmap : (n.form.map (Node.audit I drop o)).Lift
        (fun _ x x' => ∀ t, K.rel Eq (x t) (x' t)) (fun _ _ => True)
        (n.form.map (Node.audit J drop' o)) := by
      refine hsame.map (fun _ a b hab => ?_) fun _ _ _ => trivial
      obtain ⟨rfl, ha⟩ := hab
      exact ih a ha
    cases hs : n.isStatement with
    | true =>
      rw [Node.audit_statement hs, Node.audit_statement hs]
      exact K.rel_pure rfl
    | false =>
      have hasked : ((n.form.map (Node.audit I drop o)).asked truth).Lift
          (fun _ x x' => K.rel Eq x x') (fun _ _ => True)
          ((n.form.map (Node.audit J drop' o)).asked truth) := by
        refine hmap.asked truth ?_ (fun _ _ _ h => h _) fun _ _ _ => trivial
        rw [Form.isStatement_map]
        exact hs
      have hlayer {f : Form (m Primitive)} {g : Form (m' Primitive)}
          (h : f.Lift (fun _ x x' => K.rel Eq x x') (fun _ _ => True) g) :
          K.rel (Agree false) (I.layer f) (J.layer g) :=
        hI.rel_layer h fun _ _ _ h => mono h fun _ _ => .of_eq
      rw [Node.audit_eq, Node.audit_eq]
      dsimp only
      split
      · exact hlayer (hasked.map (fun _ _ _ h => hdrop _ _ h) fun _ _ _ => trivial)
      · exact hlayer hasked

/-- The computation compares to doing nothing, and yields a value of which `V` holds. -/
def Idle (K : Comparison m m') (V : α → Prop) (x : m α) : Prop :=
  K.rel (fun a (_ : Unit) => V a) x (pure ())

namespace Idle

variable {V : α → Prop} {W : β → Prop}

omit [LawfulMonad m] in
theorem of_rel {V : α → β → Prop} {x : m α} {b : β} (h : K.rel V x (pure b)) :
    K.Idle (V · b) x := by
  refine K.rel_of_map (f := fun _ => b) ?_
  rwa [map_pure]

theorem rel {V : α → β → Prop} {x : m α} {b : β} (h : K.Idle (V · b) x) :
    K.rel V x (pure b) := by
  have hx := K.rel_bind h fun a _ hab => K.rel_pure (V := V) (a := a) (b := b) hab
  rwa [bind_pure, pure_bind] at hx

omit [LawfulMonad m] in
/-- What follows an idle computation stands for all. -/
theorem bind {U : β → γ → Prop} {x : m α} {f : α → m β} {y : m' γ} (h : K.Idle V x)
    (hf : ∀ a, V a → K.rel U (f a) y) : K.rel U (x >>= f) y := by
  have hx := K.rel_bind h (g := fun _ => y) fun a _ ha => hf a ha
  rwa [pure_bind] at hx

theorem mono {V' : α → Prop} {x : m α} (h : K.Idle V x) (hV : ∀ a, V a → V' a) : K.Idle V' x :=
  Comparison.mono h fun a _ => hV a

end Idle

/-- Two computations that show the same truth can stand for each other where truth is asked. -/
theorem of_truth {x' y' : m' Primitive} (h : K.rel (Agree true) x x')
    (hxy : Primitive.truthy <$> x' = Primitive.truthy <$> y') : K.rel (Agree true) x y' := by
  have hx : K.rel (fun v t => v.truthy = t) x (Primitive.truthy <$> x') := by
    rw [← bind_pure x, map_eq_pure_bind]
    exact K.rel_bind h fun v w hvw => K.rel_pure hvw
  rw [hxy] at hx
  exact K.rel_of_map (V := fun (v : Primitive) (t : Bool) => v.truthy = t) hx

/-- How operands may be dropped: what is idle stays so, and whatever is dropped is idle. -/
structure Drops (K : Comparison m m') (drop : m Primitive → m Primitive) : Prop where
  idle : ∀ {V : Primitive → Prop} {x : m Primitive}, K.Idle V x → K.Idle V (drop x)
  skip : ∀ {V : Primitive → Primitive → Prop} {x : m Primitive} {y : m' Primitive},
    K.rel V x y → K.Idle (fun _ => True) (drop x)

variable {drop : m Primitive → m Primitive} {o : Options} {span : Span}

/-- Where an operand decides the truth of `&&`, `||` or `+`, both operands can be dropped. -/
theorem Drops.rel_decided (hd : Drops K drop) {op : BinaryOperator} {l r : Node} {b : Bool}
    (hx : K.rel (Agree op.isLogical) x (l.eval J)) (hy : K.rel (Agree op.isLogical) y (r.eval J))
    (h : Rule.decided? op (o.value? l) (o.value? r) = some b) :
    K.rel (Agree true) (I.binary op (drop x) (drop y)) (pure (.boolean b)) := by
  have hknown {n : Node} {z : m Primitive} {v : Primitive} {t : Bool} (hv : o.value? n = some v)
      (hz : K.rel (Agree t) z (n.eval J)) : K.Idle (Agree t · v) (drop z) := by
    rw [eval_of_value? hv] at hz
    exact hd.idle (.of_rel hz)
  have hskipx : K.Idle (fun _ => True) (drop x) := hd.skip hx
  have hskipy : K.Idle (fun _ => True) (drop y) := hd.skip hy
  refine Idle.rel ?_
  cases op with
  | and =>
    simp only [Rule.decided?, Option.ite_none_right_eq_some, Bool.or_eq_true, Option.any_eq_true,
      Bool.not_eq_true', Option.some.injEq] at h
    obtain ⟨⟨v, hv, hvt⟩ | ⟨w, hw, hwt⟩, rfl⟩ := h
    · refine (hknown hv hx).bind fun a ha => ?_
      rw [ha.truthy, hvt]
      exact K.rel_pure (ha.truthy.trans hvt)
    · refine hskipx.bind fun a _ => ?_
      split
      · exact (hknown hw hy).mono fun c hc => hc.truthy.trans hwt
      · exact K.rel_pure (by simpa [Agree, Primitive.truthy] using ‹¬a.truthy = true›)
  | or =>
    simp only [Rule.decided?, Option.ite_none_right_eq_some, Bool.or_eq_true, Option.any_eq_true,
      Option.some.injEq] at h
    obtain ⟨⟨v, hv, hvt⟩ | ⟨w, hw, hwt⟩, rfl⟩ := h
    · refine (hknown hv hx).bind fun a ha => ?_
      rw [ha.truthy, hvt]
      exact K.rel_pure (ha.truthy.trans hvt)
    · refine hskipx.bind fun a _ => ?_
      split
      · exact K.rel_pure ‹a.truthy = true›
      · exact (hknown hw hy).mono fun c hc => hc.truthy.trans hwt
  | add =>
    simp only [Rule.decided?, Option.ite_none_right_eq_some, Bool.or_eq_true, Option.any_eq_true,
      Bool.and_eq_true, decide_eq_true_eq, Option.some.injEq] at h
    obtain ⟨⟨v, hv, hvt, hvs⟩ | ⟨w, hw, hwt, hws⟩, rfl⟩ := h
    · refine (hknown hv hx).bind fun a ha => hskipy.bind fun c _ => K.rel_pure ?_
      obtain rfl := ha.eq
      exact Primitive.truthy_add_left hvt hvs
    · refine hskipx.bind fun a _ => (hknown hw hy).bind fun c hc => K.rel_pure ?_
      obtain rfl := hc.eq
      exact Primitive.truthy_add_right hwt hws
  | _ => cases h

theorem Shares.rel_prefixed (hI : K.Shares I J) (hd : o.on .booleans = true → Drops K drop) {op : UnaryOperator}
    {p q n : Node} {s : Span}
    (hp : K.rel (Agree (decide (op = .not))) (p.audit I drop o (decide (op = .not))) (q.eval J))
    (h : Rule.Prefixed o truth op q span n) :
    K.rel (Agree truth) ((⟨.unary op p, s⟩ : Node).audit I drop o truth) (n.eval J) := by
  rw [Node.audit_unary]
  have hunary : K.rel (Agree truth) (I.unary op (p.audit I drop o (decide (op = .not))))
      ((⟨.unary op q, span⟩ : Node).eval J) := by
    rw [eval_unary]
    exact hI.rel_unary hp
  cases h with
  | @unwrapped inner s' ht hb hop hq =>
    subst ht hop hq
    rw [if_neg (by simp)]
    exact of_truth hunary truth_not_not
  | named ht hb hop =>
    subst ht hop
    rw [if_pos (by simp [hb]), eval_truthLiteral]
    refine Idle.rel (((hd hb).skip hp).bind fun v _ => K.rel_pure ?_)
    change (Primitive.string v.typeName).truthy = true
    cases v <;> rfl
  | folded hn =>
    have hkeep : ¬(o.on .booleans && truth && decide (op = .typeOf)) = true := by
      intro hc
      simp only [Bool.and_eq_true, decide_eq_true_eq] at hc
      exact hn ⟨hc.1.2, hc.1.1, hc.2⟩
    rw [if_neg hkeep, eval_shortenBoolean, eval_folded]
    exact hunary

theorem Shares.rel_combined (hI : K.Shares I J) (hd : o.on .booleans = true → Drops K drop) {op : BinaryOperator}
    {l r l' r' n : Node} {s : Span}
    (hl : K.rel (Agree (op.isLogical && truth)) (l.audit I drop o (op.isLogical && truth))
      (l'.eval J))
    (hr : K.rel (Agree (op.isLogical && truth)) (r.audit I drop o (op.isLogical && truth))
      (r'.eval J))
    (hkl : l.known? o (op.isLogical && truth) = o.value? l')
    (hkr : r.known? o (op.isLogical && truth) = o.value? r')
    (hsl : l'.BuiltOf (o.Sound J)) (hsr : r'.BuiltOf (o.Sound J))
    (h : Rule.Combined o truth op l' r' span n) :
    K.rel (Agree truth) ((⟨.binary op l r, s⟩ : Node).audit I drop o truth) (n.eval J) := by
  have hdiscards (ht : truth = true) (hb : o.on .booleans = true) :
      (⟨.binary op l r, s⟩ : Node).discards o truth =
        (Rule.decided? op (o.value? l') (o.value? r')).isSome := by
    subst ht
    rw [Bool.and_true] at hkl hkr
    rw [← hkl, ← hkr]
    simp [Node.discards, hb]
  rw [Node.audit_binary]
  cases h with
  | decided ht hb hdec =>
    rw [if_pos (by rw [hdiscards ht hb, hdec]; rfl), eval_truthLiteral]
    subst ht
    rw [Bool.and_true] at hl hr ⊢
    exact (hd hb).rel_decided hl hr hdec
  | @right v ht hb hop hdec hv =>
    rw [if_neg (by rw [hdiscards ht hb, hdec]; exact Bool.false_ne_true), eval_shortenBoolean]
    subst ht
    rw [eval_of_value? hv] at hl
    have hidle := Idle.of_rel hl
    cases op with
    | and =>
      have hvt : v.truthy = true := by
        by_contra hne
        simp [Rule.decided?, hv, hne] at hdec
      refine hidle.bind fun a ha => ?_
      rw [ha.truthy, hvt]
      exact hr
    | or =>
      have hvt : v.truthy = false := by
        by_contra hne
        simp [Rule.decided?, hv, hne] at hdec
      refine hidle.bind fun a ha => ?_
      rw [ha.truthy, hvt]
      exact hr
    | _ => cases hop
  | @left w ht hb hop hdec hv hw =>
    rw [if_neg (by rw [hdiscards ht hb, hdec]; exact Bool.false_ne_true), eval_shortenBoolean]
    subst ht
    rw [eval_of_value? hw] at hr
    rw [← bind_pure (l'.eval J)]
    have hright {b : Primitive} (hwt : w.truthy = b.truthy) : K.rel (Agree true)
        (r.audit I drop o (op.isLogical && true)) (pure b) :=
      Idle.rel ((Idle.of_rel hr).mono fun c hc => hc.truthy.trans hwt)
    cases op with
    | and =>
      have hwt : w.truthy = true := by
        by_contra hne
        simp [Rule.decided?, hv, hw, hne] at hdec
      refine K.rel_bind hl fun a b hab => ?_
      split
      · exact hright (hwt.trans (hab.truthy.symm.trans ‹a.truthy = true›).symm)
      · exact K.rel_pure hab.truthy
    | or =>
      have hwt : w.truthy = false := by
        by_contra hne
        simp [Rule.decided?, hv, hw, hne] at hdec
      refine K.rel_bind hl fun a b hab => ?_
      split
      · exact K.rel_pure hab.truthy
      · have hat : a.truthy = false := by simpa using ‹¬a.truthy = true›
        exact hright (hwt.trans (hab.truthy.symm.trans hat).symm)
    | _ => cases hop
  | folded hdec =>
    have hkeep : ¬(⟨.binary op l r, s⟩ : Node).discards o truth = true := by
      by_cases ht : truth = true ∧ o.on .booleans = true
      · rw [hdiscards ht.1 ht.2, hdec ht.1 ht.2]
        exact Bool.false_ne_true
      · simp only [Node.discards, Bool.and_eq_true]
        exact fun h => ht ⟨h.1.2, h.1.1⟩
    rw [if_neg hkeep, eval_shortenBoolean, eval_folded, eval_loosen hsl hsr, eval_binary]
    exact hI.rel_binary hl hr

omit [LawfulMonad m'] in
theorem builtOf_lift {R : Category → Node → Node → Prop} {L : List Node → List Node → Prop}
    {form form' : Form Node} (h : form.Lift R L form') (hs : form.isStatement = false)
    (hsound : o.Sound J form) (hR : ∀ k a b, R k a b → b.BuiltOf (o.Sound J)) :
    (⟨form', span⟩ : Node).BuiltOf (o.Sound J) := by
  have hs' : form'.isStatement = false := by cases h <;> first | rfl | cases hs
  have hsound' : o.Sound J form' := by cases h <;> exact hsound
  refine .mk hs' hsound' fun ho c hc => ?_
  obtain ⟨k, hk⟩ := Form.exists_part hc
  have hall := h.forall_parts (P := fun k b => k = .statement ∨ b.BuiltOf (o.Sound J))
    (fun k a b hab => .inr (hR k a b hab)) fun _ _ _ _ _ => .inl rfl
  refine (hall k c hk).resolve_left ?_
  rintro rfl
  exact Form.statement_not_mem_parts hs' ho hk

/-- A function stays a function of its name. -/
theorem gives_function {C : Context → Prop} {l : Lambda Node}
    (hl : (Form.function l).ScopeFits) (hC : ∀ c, C c → c.testsTruth = truth) :
    Gives (fun _ => False) C ((⟨.function l, span⟩ : Node).reduce o) fun n =>
      ∃ l' : Lambda Node, l'.name = l.name ∧ n = ⟨.function l', span⟩ := by
  refine gives_reduce (R := fun _ _ _ => True) rfl hC (fun k a ha => ?_) fun form' hform' => ?_
  · have hbelow := Category.below_of_mem_parts ha
    have hfits : a.Fits true k := Hoist.fits_surfaceForm (hl rfl) k a ha
    refine ((gives_remains (s := ⟨false, some ⟨.other, k.role⟩⟩) hfits hbelow).mono
      fun _ _ => trivial).narrow fun c hc => ?_
    obtain ⟨c₀, _, rfl⟩ := hc
    exact ⟨rfl, rfl⟩
  · cases hform' with
    | function =>
      refine ⟨trivial, fun m hm => ⟨_, ?_, hm⟩⟩
      rfl

variable (I J drop o) in
/-- What has come of an expression that was asked for its truth alone or for its value. -/
structure Audited (K : Comparison m m') (truth : Bool) (n n' : Node) : Prop where
  sound : n'.BuiltOf (o.Sound J)
  rel : K.rel (Agree truth) (n.audit I drop o truth) (n'.eval J)
  known : n.known? o truth = o.value? n'

omit [LawfulMonad m'] in
theorem sound_index {subject property : Node}
    (h : (⟨.index subject property, span⟩ : Node).BuiltOf (o.Sound J)) :
    (Rule.index o subject property span).BuiltOf (o.Sound J) := by
  unfold Rule.index
  split
  · split
    · refine .mk rfl (fun _ => trivial) fun _ c hc => ?_
      obtain rfl : c = subject := by simpa [Form.children] using hc
      exact h.child rfl (by simp [Form.children])
    · exact h
  · exact h

/-- What the rule for a form makes of parts that have been audited does what the audit of the form
does. -/
theorem Shares.rel_simplified (hI : K.Shares I J) (hd : o.on .booleans = true → Drops K drop) {form form' : Form Node}
    {n : Node} {s : Span} {L : List Node → List Node → Prop} (hs : form.isStatement = false)
    (ho : form.opensScope = false) (hsound : o.Sound J form)
    (hform : form.Lift (fun k => Audited I J drop o K
      (form.enclosureKind.asksTruth k.role truth)) L form')
    (h : Rule.Simplified o truth span form' n) :
    n.BuiltOf (o.Sound J) ∧ K.rel (Agree truth) ((⟨form, s⟩ : Node).audit I drop o truth) (n.eval J) := by
  have hbuilt : (⟨form', span⟩ : Node).BuiltOf (o.Sound J) :=
    builtOf_lift hform hs hsound fun _ _ _ h => h.sound
  have hsame (hkeep : (⟨form, s⟩ : Node).discards o truth = false) :
      K.rel (Agree truth) ((⟨form, s⟩ : Node).audit I drop o truth)
        ((⟨form', span⟩ : Node).eval J) := by
    have hmap : (form.map (Node.audit I drop o)).Lift
        (fun k x x' => K.rel (Agree (form.enclosureKind.asksTruth k.role truth))
          (x (form.enclosureKind.asksTruth k.role truth))
          (x' (form.enclosureKind.asksTruth k.role truth)))
        (fun _ _ => True) (form'.map fun n _ => n.eval J) :=
      hform.map (fun _ _ _ h => h.rel) fun _ _ _ => trivial
    have hkind : (form.map (Node.audit I drop o)).enclosureKind = form.enclosureKind :=
      Form.enclosureKind_map _ _
    have hasked : ((form.map (Node.audit I drop o)).asked truth).Lift
        (fun k => K.rel (Agree (form.enclosureKind.asksTruth k.role truth))) (fun _ _ => True)
        (form'.map (Node.eval J)) := by
      rw [← Form.asked_const truth (Node.eval J) form']
      refine hmap.asked truth ?_ ?_ fun _ _ _ => trivial
      · rwa [Form.isStatement_map]
      · rw [hkind]
        exact fun _ _ _ h => h
    rw [Node.audit_eq, hkeep, Node.eval_eq]
    dsimp only [Node.form_mk]
    rw [if_neg Bool.false_ne_true]
    refine hI.rel_layer hasked fun k x x' h => ?_
    rwa [Form.enclosureKind_asked, hkind]
  cases hform with
  | boolean =>
    obtain rfl := h
    refine ⟨(closed_sound o J).truthLiteral _, ?_⟩
    have := hsame (by simp [Node.discards])
    rw [eval_truthLiteral]
    rwa [Node.eval_eq] at this
  | unary hx =>
    refine ⟨(closed_sound o J).prefixed h hbuilt, hI.rel_prefixed hd ?_ h⟩
    have := hx.rel
    rwa [asksTruth_unary] at this
  | binary hl hr =>
    rw [asksTruth_binary] at hl hr
    exact ⟨(closed_sound o J).combined h hbuilt, hI.rel_combined hd hl.rel hr.rel hl.known hr.known
      hl.sound hr.sound h⟩
  | conditional hc ha hb =>
    refine ⟨(closed_sound o J).chosen h hbuilt, ?_⟩
    rw [eval_chosen hc.sound h]
    exact hsame (by simp [Node.discards])
  | index ha hb =>
    obtain rfl := h
    refine ⟨sound_index hbuilt, ?_⟩
    rw [eval_index]
    exact hsame (by simp [Node.discards])
  | _ =>
    first
      | (cases hs; done)
      | (cases ho; done)
      | (obtain rfl := h; exact ⟨hbuilt, hsame (by simp [Node.discards])⟩)

/-- An expression is reduced without a fault, to one that does what the audit of the expression
does. -/
theorem gives_audited (hI : K.Shares I J) (hd : o.on .booleans = true → Drops K drop) {n : Node}
    (hn : n.BuiltOf fun form => o.Sound J form ∧ form.ScopeFits) (truth : Bool) :
    Gives (fun _ => False) (Asks truth) (n.reduce o) fun m =>
      m.BuiltOf (o.Sound J) ∧ K.rel (Agree truth) (n.audit I drop o truth) (m.eval J) := by
  induction n using Node.induct generalizing truth with
  | h n ih =>
    obtain ⟨form, span⟩ := n
    have hs := hn.isStatement
    have hholds := hn.holds
    cases ho : form.opensScope with
    | true =>
      cases form with
      | function l =>
        refine (gives_function hholds.2 fun c hc => hc).mono ?_
        rintro _ ⟨l', hl', rfl⟩
        have hbuilt : (⟨.function l', span⟩ : Node).BuiltOf (o.Sound J) :=
          .mk rfl (fun _ => trivial) (by simp [Form.opensScope])
        refine ⟨hbuilt, ?_⟩
        rw [Node.audit_eq, Node.eval_eq]
        dsimp only
        have hact : K.rel (Agree truth) (I.act (.function l.name) [])
            (J.act (.function l'.name) []) := by
          rw [hl']
          exact hI.rel_act _ _
        split <;> exact hact
      | declaration | program => cases hs
      | _ => cases ho
    | false =>
      have hsurface : o.hoist.surfaceForm span form = form := by cases form <;> first | rfl | cases ho
      have hmark : form.isMarked = false := by cases form <;> first | rfl | cases hs
      have hpart (k : Category) (a : Node) (ha : (k, a) ∈ form.parts) :
          Gives (fun _ => False) (Asks (form.enclosureKind.asksTruth k.role truth)) (a.reduce o)
            (Audited I J drop o K (form.enclosureKind.asksTruth k.role truth) a) := by
        have hc := Form.mem_children_of_parts ha
        refine ((ih a hc (hn.child ho hc) _).result _ (asks_asking _)).mono ?_
        rintro m ⟨⟨hsound, hrel⟩, hrun⟩
        exact ⟨hsound, hrel, by rw [Node.known?, hrun []]⟩
      refine gives_reduce (R := fun k => Audited I J drop o K
        (form.enclosureKind.asksTruth k.role truth)) hmark (fun c hc => hc) (fun k a ha => ?_)
          fun form' hform' => ?_
      · rw [hsurface] at ha
        exact (hpart k a ha).narrow fun _ => Asks.inside
      · rw [hsurface] at hform'
        have htests : Rule.Tests (Rule.Evaluable fun _ => False) form' := by
          cases hform' with
          | conditional hc => exact Rule.evaluable_of_builtOf hc.sound
          | unary hx => exact Rule.evaluable_of_builtOf hx.sound
          | binary hl hr =>
            exact ⟨Rule.evaluable_of_builtOf hl.sound, Rule.evaluable_of_builtOf hr.sound⟩
          | branch | loop => cases hs
          | _ => exact trivial
        exact ⟨htests, fun m hm => hI.rel_simplified hd hs ho hholds.1 hform' hm⟩

end Comparison

end ScriptMinifier
