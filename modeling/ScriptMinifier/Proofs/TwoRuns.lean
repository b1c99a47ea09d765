import ScriptMinifier.Proofs.Parts

namespace ScriptMinifier

namespace Pass

variable {α β : Type}

/-- A relation between steps that can be told step by step. -/
structure Relational (R : (α : Type) → Pass α → Pass α → Prop) : Prop where
  pure {α : Type} (a : α) : R α (pure a) (pure a)
  bind {α β : Type} {p p' : Pass α} {f f' : α → Pass β} : R α p p' → (∀ a, R β (f a) (f' a)) →
    R β (p >>= f) (p' >>= f')

namespace Relational

variable {R : (α : Type) → Pass α → Pass α → Prop} (hR : Relational R)

include hR

theorem mapM_list {f f' : α → Pass β} {as : List α} (h : ∀ a ∈ as, R β (f a) (f' a)) :
    R (List β) (as.mapM f) (as.mapM f') := by
  induction as with
  | nil => exact hR.pure []
  | cons a as ih =>
    obtain ⟨ha, has⟩ := List.forall_mem_cons.1 h
    rw [List.mapM_cons, List.mapM_cons]
    exact hR.bind ha fun _ => hR.bind (ih has) fun _ => hR.pure _

theorem forM_list {f f' : α → Pass Unit} {as : List α} (h : ∀ a ∈ as, R Unit (f a) (f' a)) :
    R Unit (as.forM f) (as.forM f') := by
  induction as with
  | nil => exact hR.pure ()
  | cons a as ih =>
    obtain ⟨ha, has⟩ := List.forall_mem_cons.1 h
    exact hR.bind ha fun _ => ih has

theorem mapM_option {f f' : α → Pass β} {a? : Option α} (h : ∀ a ∈ a?, R β (f a) (f' a)) :
    R (Option β) (a?.mapM f) (a?.mapM f') := by
  cases a? with
  | none => exact hR.pure none
  | some a => exact hR.bind (h a rfl) fun _ => hR.pure _

/-- Visits of a form are related whose steps are. -/
theorem traverse {child child' : Role → α → Pass β}
    {statements statements' : List α → Pass (List β)} {form : Form α}
    (hc : ∀ k a, (k, a) ∈ form.parts → R β (child k.role a) (child' k.role a))
    (hs : ∀ body ∈ form.body?, R (List β) (statements body) (statements' body)) :
    R (Form β) (form.traverse child statements) (form.traverse child' statements') := by
  have hv (k : Category) {a? : Option α} (h : ∀ a ∈ a?, (k, a) ∈ form.parts) :
      R (Option β) (a?.mapM (child k.role)) (a?.mapM (child' k.role)) :=
    hR.mapM_option fun a ha => hc k a (h a ha)
  have hl (k : Category) {as : List α} (h : ∀ a ∈ as, (k, a) ∈ form.parts) :
      R (List β) (as.mapM (child k.role)) (as.mapM (child' k.role)) :=
    hR.mapM_list fun a ha => hc k a (h a ha)
  cases form with
  | empty | debugger | jump | string | number | boolean | null | undefined | identifier | this =>
    exact hR.pure _
  | expression e | member e =>
    exact hR.bind (hc .expression e (by simp [Form.parts])) fun _ => hR.pure _
  | labeled l b => exact hR.bind (hc .statement b (by simp [Form.parts])) fun _ => hR.pure _
  | unary op e | update op e =>
    have he := hc op.operandCategory e (by simp [Form.parts])
    rw [op.role_operandCategory] at he
    exact hR.bind he fun _ => hR.pure _
  | block b | catch_ s b | finally_ b | program b =>
    exact hR.bind (hs b rfl) fun _ => hR.pure _
  | declaration l | function l => exact hR.bind (hs l.body rfl) fun _ => hR.pure _
  | exit k v => exact hR.bind (hv .expression (by simp [Form.parts])) fun _ => hR.pure _
  | branch c b v =>
    exact hR.bind (hc .condition c (by simp [Form.parts])) fun _ =>
      hR.bind (hc .statement b (by simp [Form.parts])) fun _ =>
      hR.bind (hv .statement (by simp +contextual [Form.parts])) fun _ => hR.pure _
  | loop k c b =>
    exact hR.bind (hc .condition c (by simp [Form.parts])) fun _ =>
      hR.bind (hc .statement b (by simp [Form.parts])) fun _ => hR.pure _
  | forLoop i c s b =>
    exact hR.bind (hv .head (by simp [Form.parts])) fun _ =>
      hR.bind (hv .condition (by simp [Form.parts])) fun _ =>
      hR.bind (hv .expression (by simp [Form.parts])) fun _ =>
      hR.bind (hc .statement b (by simp [Form.parts])) fun _ => hR.pure _
  | forIn i e b =>
    exact hR.bind (hc .cursor i (by simp [Form.parts])) fun _ =>
      hR.bind (hc .expression e (by simp [Form.parts])) fun _ =>
      hR.bind (hc .statement b (by simp [Form.parts])) fun _ => hR.pure _
  | switch e cases =>
    exact hR.bind (hc .expression e (by simp [Form.parts])) fun _ =>
      hR.bind (hl .clause (by simp [Form.parts])) fun _ => hR.pure _
  | case v b =>
    exact hR.bind (hv .expression (by simp [Form.parts])) fun _ =>
      hR.bind (hs b rfl) fun _ => hR.pure _
  | try_ b h f =>
    exact hR.bind (hs b rfl) fun _ => hR.bind (hv .handler (by simp [Form.parts])) fun _ =>
      hR.bind (hv .finalizer (by simp [Form.parts])) fun _ => hR.pure _
  | with_ e b =>
    exact hR.bind (hc .expression e (by simp [Form.parts])) fun _ =>
      hR.bind (hc .statement b (by simp [Form.parts])) fun _ => hR.pure _
  | definitions k bs h =>
    have hb : ∀ b ∈ bs, R (Binding β) (b.mapM (child .other)) (b.mapM (child' .other)) := by
      intro b hb
      refine hR.bind (hv .expression fun a ha => ?_) fun _ => hR.pure _
      simp only [Form.parts, List.mem_map, List.mem_filterMap]
      exact ⟨a, ⟨b, hb, ha⟩, rfl⟩
    exact hR.bind (hR.mapM_list hb) fun _ => hR.pure _
  | binary op a b | sequence a b | index a b =>
    exact hR.bind (hc .expression a (by simp [Form.parts])) fun _ =>
      hR.bind (hc .expression b (by simp [Form.parts])) fun _ => hR.pure _
  | assign op a b =>
    exact hR.bind (hc .target a (by simp [Form.parts])) fun _ =>
      hR.bind (hc .expression b (by simp [Form.parts])) fun _ => hR.pure _
  | conditional c a b =>
    exact hR.bind (hc .condition c (by simp [Form.parts])) fun _ =>
      hR.bind (hc .expression a (by simp [Form.parts])) fun _ =>
      hR.bind (hc .expression b (by simp [Form.parts])) fun _ => hR.pure _
  | call e es | construct e es =>
    exact hR.bind (hc .expression e (by simp [Form.parts])) fun _ =>
      hR.bind (hl .expression (by simp +contextual [Form.parts])) fun _ => hR.pure _
  | array es => exact hR.bind (hl .expression (by simp [Form.parts])) fun _ => hR.pure _
  | object ps =>
    have hp : ∀ p ∈ ps, R (Property β) (p.mapM (child .other)) (p.mapM (child' .other)) := by
      intro p hp
      refine hR.bind (hc .expression p.value ?_) fun _ => hR.pure _
      exact List.mem_map.2 ⟨p, hp, rfl⟩
    exact hR.bind (hR.mapM_list hp) fun _ => hR.pure _

end Relational

end Pass

end ScriptMinifier
