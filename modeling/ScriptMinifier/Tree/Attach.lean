import ScriptMinifier.Tree.Form

namespace ScriptMinifier

namespace Form

variable {α β : Type} {p : α → Prop}

/-- As `map`, for a function that needs to know something about each child. -/
def pmap (f : (a : α) → p a → β) : (form : Form α) → (∀ a ∈ form.children, p a) → Form β
  | expression e, h => expression (f e (h e (by simp [children])))
  | block body, h => block (body.pmap f fun a ha => h a (by simpa [children] using ha))
  | empty, _ => empty
  | debugger, _ => debugger
  | labeled l body, h => labeled l (f body (h body (by simp [children])))
  | exit k value, h => exit k (value.pmap f fun a ha => h a (by simp_all [children]))
  | jump k l, _ => jump k l
  | branch c body alternative, h =>
    branch (f c (h c (by simp [children]))) (f body (h body (by simp [children])))
      (alternative.pmap f fun a ha => h a (by simp_all [children]))
  | loop k c body, h =>
    loop k (f c (h c (by cases k <;> simp [children])))
      (f body (h body (by cases k <;> simp [children])))
  | forLoop init c step body, h =>
    forLoop (init.pmap f fun a ha => h a (by simp_all [children]))
      (c.pmap f fun a ha => h a (by simp_all [children]))
      (step.pmap f fun a ha => h a (by simp_all [children]))
      (f body (h body (by simp [children])))
  | forIn init e body, h =>
    forIn (f init (h init (by simp [children]))) (f e (h e (by simp [children])))
      (f body (h body (by simp [children])))
  | switch e cases, h =>
    switch (f e (h e (by simp [children]))) (cases.pmap f fun a ha => h a (by simp_all [children]))
  | case test body, h =>
    case (test.pmap f fun a ha => h a (by simp_all [children]))
      (body.pmap f fun a ha => h a (by simp_all [children]))
  | try_ body handler finalizer, h =>
    try_ (body.pmap f fun a ha => h a (by simp_all [children]))
      (handler.pmap f fun a ha => h a (by simp_all [children]))
      (finalizer.pmap f fun a ha => h a (by simp_all [children]))
  | catch_ s body, h => catch_ s (body.pmap f fun a ha => h a (by simpa [children] using ha))
  | finally_ body, h => finally_ (body.pmap f fun a ha => h a (by simpa [children] using ha))
  | with_ e body, h => with_ (f e (h e (by simp [children]))) (f body (h body (by simp [children])))
  | definitions k bindings mark, h =>
    definitions k (bindings.pmap (fun b hb => { b with value := b.value.pmap f hb })
      fun b hb a ha => h a (by simp only [children, List.mem_filterMap]; exact ⟨b, hb, ha⟩)) mark
  | declaration l, h =>
    declaration { l with body := l.body.pmap f fun a ha => h a (by simpa [children] using ha) }
  | program body, h => program (body.pmap f fun a ha => h a (by simpa [children] using ha))
  | function l, h =>
    function { l with body := l.body.pmap f fun a ha => h a (by simpa [children] using ha) }
  | string s, _ => string s
  | number x, _ => number x
  | boolean b, _ => boolean b
  | null, _ => null
  | undefined, _ => undefined
  | identifier s, _ => identifier s
  | this, _ => this
  | unary op e, h => unary op (f e (h e (by simp [children])))
  | update op e, h => update op (f e (h e (by simp [children])))
  | binary op l r, h =>
    binary op (f l (h l (by simp [children]))) (f r (h r (by simp [children])))
  | assign op l r, h =>
    assign op (f l (h l (by simp [children]))) (f r (h r (by simp [children])))
  | conditional c a b, h =>
    conditional (f c (h c (by simp [children]))) (f a (h a (by simp [children])))
      (f b (h b (by simp [children])))
  | sequence a b, h => sequence (f a (h a (by simp [children]))) (f b (h b (by simp [children])))
  | call e args, h =>
    call (f e (h e (by simp [children]))) (args.pmap f fun a ha => h a (by simp_all [children]))
  | construct e args, h =>
    construct (f e (h e (by simp [children])))
      (args.pmap f fun a ha => h a (by simp_all [children]))
  | member e s, h => member (f e (h e (by simp [children]))) s
  | index e s, h => index (f e (h e (by simp [children]))) (f s (h s (by simp [children])))
  | array es, h => array (es.pmap f fun a ha => h a (by simpa [children] using ha))
  | object ps, h =>
    object (ps.pmap (fun q hq => { q with value := f q.value hq })
      fun q hq => h q.value (by simp only [children, List.mem_map]; exact ⟨q, hq, rfl⟩))

/-- The form over its own children. -/
def attach (form : Form α) : Form { a // a ∈ form.children } :=
  form.pmap Subtype.mk fun _ h => h

theorem pmap_eq_map (f : α → β) (form : Form α) (h : ∀ a ∈ form.children, p a) :
    form.pmap (fun a _ => f a) h = form.map f := by
  cases form <;>
    simp only [pmap, map, Option.pmap_eq_map, List.pmap_eq_map, Binding.map, Property.map]

theorem map_pmap {γ : Type} (g : β → γ) (f : (a : α) → p a → β) (form : Form α)
    (h : ∀ a ∈ form.children, p a) :
    (form.pmap f h).map g = form.pmap (fun a ha => g (f a ha)) h := by
  cases form <;>
    simp only [pmap, map, Option.map_pmap, List.map_pmap, Binding.map, Property.map]

theorem map_map {γ : Type} (g : β → γ) (f : α → β) (form : Form α) :
    form.map (fun a => g (f a)) = (form.map f).map g := by
  cases form <;> simp [map, Binding.map, Property.map, Function.comp_def]

@[simp] theorem children_map (f : α → β) (form : Form α) :
    (form.map f).children = form.children.map f := by
  cases form with
  | loop k => cases k <;> rfl
  | definitions k bs h =>
    simp only [map, children, List.filterMap_map, List.map_filterMap]
    rfl
  | object ps => simp [map, children, Property.map, Function.comp_def]
  | _ => simp [map, children, Option.toList_map]

theorem map_val_pmap (form : Form α) (h : ∀ a ∈ form.children, p a) :
    (form.pmap Subtype.mk h).map Subtype.val = form := by
  rw [map_pmap, pmap_eq_map]
  exact map_id form

@[simp] theorem attach_map_val (form : Form α) : form.attach.map Subtype.val = form :=
  form.map_val_pmap _

theorem map_congr {f g : α → β} {form : Form α} (h : ∀ a ∈ form.children, f a = g a) :
    form.map f = form.map g := by
  rw [← form.attach_map_val, ← map_map, ← map_map]
  congr 1
  funext c
  exact h c.1 c.2

theorem map_eq_self {f : α → α} {form : Form α} (h : ∀ a ∈ form.children, f a = a) :
    form.map f = form := by
  rw [map_congr (g := id) h, map_id]

private theorem optionMapM_map {γ : Type} {m : Type → Type} [Monad m] (f : α → m β) (g : γ → α)
    (o : Option γ) : (o.map g).mapM f = o.mapM fun c => f (g c) := by
  cases o <;> rfl

private theorem optionMapM_pure {m : Type → Type} [Monad m] [LawfulMonad m] (f : α → β)
    (o : Option α) : o.mapM (m := m) (fun a => pure (f a)) = pure (o.map f) := by
  cases o with
  | none => rfl
  | some a => exact map_pure some (f a)

/-- Mapping before a visit is mapping inside it. -/
theorem traverse_map {γ : Type} {m : Type → Type} [Monad m] [LawfulMonad m] (g : γ → α)
    (child : Role → α → m β) (statements : List α → m (List β)) (form : Form γ) :
    (form.map g).traverse child statements =
      form.traverse (fun s c => child s (g c)) (fun l => statements (l.map g)) := by
  cases form <;>
    simp [map, traverse, Binding.map, Binding.mapM, Property.map, Property.mapM,
      Function.comp_def, optionMapM_map]

theorem traverse_pure {m : Type → Type} [Monad m] [LawfulMonad m] (f : α → β) (form : Form α) :
    form.traverse (m := m) (fun _ a => pure (f a)) (fun l => pure (l.map f)) =
      pure (form.map f) := by
  have hb (b : Binding α) : b.mapM (m := m) (fun a => pure (f a)) = pure (b.map f) := by
    simp [Binding.mapM, Binding.map, optionMapM_pure]
  have hp (p : Property α) : p.mapM (m := m) (fun a => pure (f a)) = pure (p.map f) := by
    simp [Property.mapM, Property.map]
  cases form <;> simp [traverse, map, optionMapM_pure, hb, hp]

theorem mapM_pure {m : Type → Type} [Monad m] [LawfulMonad m] (f : α → β) (form : Form α) :
    form.mapM (m := m) (fun a => pure (f a)) = pure (form.map f) := by
  have h := traverse_pure (m := m) f form
  cases form with
  | loop k => cases k <;> simp [mapM, traverse, map]
  | _ => simpa [mapM] using h

theorem mapM_map {γ : Type} {m : Type → Type} [Monad m] [LawfulMonad m] (f : α → m β) (g : γ → α)
    (form : Form γ) : (form.map g).mapM f = form.mapM fun c => f (g c) := by
  have h := traverse_map g (fun _ => f) (·.mapM f) form
  simp only [List.mapM_map] at h
  cases form with
  | loop k c body => cases k <;> rfl
  | _ => exact h

end Form

end ScriptMinifier
