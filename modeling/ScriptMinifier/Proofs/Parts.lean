import ScriptMinifier.Proofs.Pass

namespace ScriptMinifier

/-- What a place in a form is for. -/
inductive Category where
  | expression
  /-- An expression of which only the truth is asked. -/
  | condition
  /-- What is assigned to. -/
  | target
  /-- What a `for` starts with. -/
  | head
  /-- What a `for ... in` assigns to. -/
  | cursor
  | statement
  | clause
  | handler
  | finalizer
deriving DecidableEq, Repr

def Category.role : Category → Role
  | condition => .condition
  | head | cursor => .init
  | _ => .other

/-- `++` and `--` assign to their operand. -/
def UnaryOperator.operandCategory : UnaryOperator → Category
  | increment | decrement => .target
  | _ => .expression

@[simp] theorem UnaryOperator.role_operandCategory (op : UnaryOperator) :
    op.operandCategory.role = .other := by
  cases op <;> rfl

@[simp] theorem UnaryOperator.head_ne_operandCategory (op : UnaryOperator) :
    Category.head ≠ op.operandCategory := by
  cases op <;> decide

/-- The initializers correspond, and nothing else differs. -/
inductive Binding.Lift {α β : Type} (R : α → β → Prop) : Binding α → Binding β → Prop
  | mk (b : Binding α) (value : Option β) (h : Option.Rel R b.value value) :
    Lift R b ⟨b.name, value, b.span⟩

/-- The values correspond, and nothing else differs. -/
inductive Property.Lift {α β : Type} (R : α → β → Prop) : Property α → Property β → Prop
  | mk (p : Property α) (value : β) (h : R p.value value) :
    Lift R p ⟨p.kind, p.key, value, p.span⟩

section Related

variable {α β : Type} {R : α → β → Prop}

theorem exists_of_rel {v : Option α} {v' : Option β}
    (h : Option.Rel R v v') {b : β} (hb : b ∈ v') : ∃ a ∈ v, R a b := by
  cases h with
  | none => cases hb
  | some h => cases hb; exact ⟨_, rfl, h⟩

theorem exists_of_forall₂ {as : List α} {bs : List β}
    (h : List.Forall₂ R as bs) {b : β} (hb : b ∈ bs) : ∃ a ∈ as, R a b := by
  induction h with
  | nil => cases hb
  | cons h _ ih =>
    rcases List.mem_cons.1 hb with rfl | hb
    · exact ⟨_, List.mem_cons_self, h⟩
    · obtain ⟨a, ha, hab⟩ := ih hb
      exact ⟨a, List.mem_cons_of_mem _ ha, hab⟩

/-- What corresponds to two lists in a row is two lists in a row. -/
theorem exists_append_of_forall₂ {as bs : List α} {cs : List β}
    (h : List.Forall₂ R (as ++ bs) cs) :
    ∃ as' bs', cs = as' ++ bs' ∧ List.Forall₂ R as as' ∧ List.Forall₂ R bs bs' := by
  induction as generalizing cs with
  | nil => exact ⟨[], cs, rfl, .nil, h⟩
  | cons a as ih =>
    cases h with
    | cons ha h =>
      obtain ⟨as', bs', rfl, has, hbs⟩ := ih h
      exact ⟨_, bs', rfl, .cons ha has, hbs⟩

end Related

namespace Form

variable {α β : Type}

/-- The children, each with what its place is for. -/
def parts : Form α → List (Category × α)
  | empty | debugger | jump .. | string _ | number _ | boolean _ | null | undefined
  | identifier _ | this => []
  | expression e | member e _ => [(.expression, e)]
  | labeled _ body => [(.statement, body)]
  | unary op e | update op e => [(op.operandCategory, e)]
  | block body | catch_ _ body | finally_ body | program body => body.map (.statement, ·)
  | declaration l | function l => l.body.map (.statement, ·)
  | array es => es.map (.expression, ·)
  | exit _ value => value.toList.map (.expression, ·)
  | branch c body alternative =>
    (.condition, c) :: (.statement, body) :: alternative.toList.map (.statement, ·)
  | loop _ c body => [(.condition, c), (.statement, body)]
  | forLoop init c step body =>
    init.toList.map (.head, ·) ++ c.toList.map (.condition, ·) ++
      step.toList.map (.expression, ·) ++ [(.statement, body)]
  | forIn init e body => [(.cursor, init), (.expression, e), (.statement, body)]
  | switch e cases => (.expression, e) :: cases.map (.clause, ·)
  | case test body => test.toList.map (.expression, ·) ++ body.map (.statement, ·)
  | try_ body handler finalizer =>
    body.map (.statement, ·) ++ handler.toList.map (.handler, ·) ++
      finalizer.toList.map (.finalizer, ·)
  | with_ e body => [(.expression, e), (.statement, body)]
  | definitions _ bindings _ => (bindings.filterMap (·.value)).map (.expression, ·)
  | binary _ a b | sequence a b | index a b => [(.expression, a), (.expression, b)]
  | assign _ target value => [(.target, target), (.expression, value)]
  | conditional c a b => [(.condition, c), (.expression, a), (.expression, b)]
  | call e args | construct e args => (.expression, e) :: args.map (.expression, ·)
  | object ps => ps.map fun p => (.expression, p.value)

/-- The statement list that a form holds, where it holds one. -/
def body? : Form α → Option (List α)
  | block body | case _ body | try_ body _ _ | catch_ _ body | finally_ body | program body =>
    some body
  | declaration l | function l => some l.body
  | _ => none

/-- The forms are alike, their parts correspond by `R` and their statement lists by `L`. -/
inductive Lift (R : Category → α → β → Prop) (L : List α → List β → Prop) :
    Form α → Form β → Prop
  | expression {e e'} : R .expression e e' → Lift R L (expression e) (expression e')
  | block {b b'} : L b b' → Lift R L (block b) (block b')
  | empty : Lift R L empty empty
  | debugger : Lift R L debugger debugger
  | labeled {l e e'} : R .statement e e' → Lift R L (labeled l e) (labeled l e')
  | exit {k v v'} : Option.Rel (R .expression) v v' → Lift R L (exit k v) (exit k v')
  | jump {k l} : Lift R L (jump k l) (jump k l)
  | branch {c c' b b' a a'} : R .condition c c' → R .statement b b' →
    Option.Rel (R .statement) a a' → Lift R L (branch c b a) (branch c' b' a')
  | loop {k c c' b b'} : R .condition c c' → R .statement b b' →
    Lift R L (loop k c b) (loop k c' b')
  | forLoop {i i' c c' s s' b b'} : Option.Rel (R .head) i i' → Option.Rel (R .condition) c c' →
    Option.Rel (R .expression) s s' → R .statement b b' →
    Lift R L (forLoop i c s b) (forLoop i' c' s' b')
  | forIn {i i' e e' b b'} : R .cursor i i' → R .expression e e' → R .statement b b' →
    Lift R L (forIn i e b) (forIn i' e' b')
  | switch {e e' cs cs'} : R .expression e e' → List.Forall₂ (R .clause) cs cs' →
    Lift R L (switch e cs) (switch e' cs')
  | case {t t' b b'} : Option.Rel (R .expression) t t' → L b b' →
    Lift R L (case t b) (case t' b')
  | try_ {b b' h h' f f'} : L b b' → Option.Rel (R .handler) h h' →
    Option.Rel (R .finalizer) f f' → Lift R L (try_ b h f) (try_ b' h' f')
  | catch_ {p b b'} : L b b' → Lift R L (catch_ p b) (catch_ p b')
  | finally_ {b b'} : L b b' → Lift R L (finally_ b) (finally_ b')
  | with_ {e e' b b'} : R .expression e e' → R .statement b b' →
    Lift R L (with_ e b) (with_ e' b')
  | definitions {k bs bs' h} : List.Forall₂ (Binding.Lift (R .expression)) bs bs' →
    Lift R L (definitions k bs h) (definitions k bs' h)
  | declaration {l b'} : L l.body b' → Lift R L (declaration l) (declaration { l with body := b' })
  | program {b b'} : L b b' → Lift R L (program b) (program b')
  | function {l b'} : L l.body b' → Lift R L (function l) (function { l with body := b' })
  | string {s} : Lift R L (string s) (string s)
  | number {x} : Lift R L (number x) (number x)
  | boolean {b} : Lift R L (boolean b) (boolean b)
  | null : Lift R L null null
  | undefined : Lift R L undefined undefined
  | identifier {s} : Lift R L (identifier s) (identifier s)
  | this : Lift R L this this
  | unary {op e e'} : R op.operandCategory e e' → Lift R L (unary op e) (unary op e')
  | update {op e e'} : R op.operandCategory e e' → Lift R L (update op e) (update op e')
  | binary {op a a' b b'} : R .expression a a' → R .expression b b' →
    Lift R L (binary op a b) (binary op a' b')
  | assign {op a a' b b'} : R .target a a' → R .expression b b' →
    Lift R L (assign op a b) (assign op a' b')
  | conditional {c c' a a' b b'} : R .condition c c' → R .expression a a' → R .expression b b' →
    Lift R L (conditional c a b) (conditional c' a' b')
  | sequence {a a' b b'} : R .expression a a' → R .expression b b' →
    Lift R L (sequence a b) (sequence a' b')
  | call {e e' es es'} : R .expression e e' → List.Forall₂ (R .expression) es es' →
    Lift R L (call e es) (call e' es')
  | construct {e e' es es'} : R .expression e e' → List.Forall₂ (R .expression) es es' →
    Lift R L (construct e es) (construct e' es')
  | member {e e' s} : R .expression e e' → Lift R L (member e s) (member e' s)
  | index {a a' b b'} : R .expression a a' → R .expression b b' →
    Lift R L (index a b) (index a' b')
  | array {es es'} : List.Forall₂ (R .expression) es es' → Lift R L (array es) (array es')
  | object {ps ps'} : List.Forall₂ (Property.Lift (R .expression)) ps ps' →
    Lift R L (object ps) (object ps')

/-- What corresponds to something and what lies in a corresponding list, every part does. -/
theorem Lift.forall_parts {R : Category → α → β → Prop} {L : List α → List β → Prop}
    {form : Form α} {form' : Form β} {P : Category → β → Prop} (h : form.Lift R L form')
    (hR : ∀ k a b, R k a b → P k b) (hL : ∀ as bs, L as bs → ∀ b ∈ bs, P .statement b) :
    ∀ k b, (k, b) ∈ form'.parts → P k b := by
  have hv {k : Category} {v : Option α} {v' : Option β} (h : Option.Rel (R k) v v') (b : β)
      (hb : b ∈ v') : P k b := (exists_of_rel h hb).elim fun a ha => hR k a b ha.2
  have hs {k : Category} {as : List α} {bs : List β} (h : List.Forall₂ (R k) as bs) (b : β)
      (hb : b ∈ bs) : P k b := (exists_of_forall₂ h hb).elim fun a ha => hR k a b ha.2
  intro k b hb
  cases h with
  | empty | debugger | jump | string | number | boolean | null | undefined | identifier | this =>
    simp [parts] at hb
  | expression h | labeled h | unary h | update h | member h =>
    obtain ⟨rfl, rfl⟩ : _ ∧ _ := by simpa [parts] using hb
    exact hR _ _ _ h
  | block h | catch_ h | finally_ h | program h | declaration h | function h =>
    obtain ⟨hb', rfl⟩ : _ ∧ _ := by simpa [parts] using hb
    exact hL _ _ h b hb'
  | exit h =>
    obtain ⟨hb', rfl⟩ : _ ∧ _ := by simpa [parts] using hb
    exact hv h b hb'
  | array h =>
    obtain ⟨hb', rfl⟩ : _ ∧ _ := by simpa [parts] using hb
    exact hs h b hb'
  | branch h₁ h₂ h₃ =>
    simp only [parts, List.mem_cons, Prod.mk.injEq, List.mem_map, Option.mem_toList] at hb
    obtain ⟨rfl, rfl⟩ | ⟨rfl, rfl⟩ | ⟨b, hb, rfl, rfl⟩ := hb
    · exact hR _ _ _ h₁
    · exact hR _ _ _ h₂
    · exact hv h₃ _ hb
  | loop h₁ h₂ | with_ h₁ h₂ | binary h₁ h₂ | sequence h₁ h₂ | index h₁ h₂ | assign h₁ h₂ =>
    simp only [parts, List.mem_cons, Prod.mk.injEq, List.not_mem_nil, or_false] at hb
    obtain ⟨rfl, rfl⟩ | ⟨rfl, rfl⟩ := hb
    · exact hR _ _ _ h₁
    · exact hR _ _ _ h₂
  | forIn h₁ h₂ h₃ | conditional h₁ h₂ h₃ =>
    simp only [parts, List.mem_cons, Prod.mk.injEq, List.not_mem_nil, or_false] at hb
    obtain ⟨rfl, rfl⟩ | ⟨rfl, rfl⟩ | ⟨rfl, rfl⟩ := hb
    · exact hR _ _ _ h₁
    · exact hR _ _ _ h₂
    · exact hR _ _ _ h₃
  | forLoop h₁ h₂ h₃ h₄ =>
    simp only [parts, List.mem_append, List.mem_cons, Prod.mk.injEq, List.mem_map,
      Option.mem_toList, List.not_mem_nil, or_false] at hb
    obtain ((⟨b, hb, rfl, rfl⟩ | ⟨b, hb, rfl, rfl⟩) | ⟨b, hb, rfl, rfl⟩) | ⟨rfl, rfl⟩ := hb
    · exact hv h₁ _ hb
    · exact hv h₂ _ hb
    · exact hv h₃ _ hb
    · exact hR _ _ _ h₄
  | switch h₁ h₂ | call h₁ h₂ | construct h₁ h₂ =>
    simp only [parts, List.mem_cons, Prod.mk.injEq, List.mem_map] at hb
    obtain ⟨rfl, rfl⟩ | ⟨b, hb, rfl, rfl⟩ := hb
    · exact hR _ _ _ h₁
    · exact hs h₂ _ hb
  | case h₁ h₂ =>
    simp only [parts, List.mem_append, List.mem_map, Prod.mk.injEq, Option.mem_toList] at hb
    obtain ⟨b, hb, rfl, rfl⟩ | ⟨b, hb, rfl, rfl⟩ := hb
    · exact hv h₁ _ hb
    · exact hL _ _ h₂ _ hb
  | try_ h₁ h₂ h₃ =>
    simp only [parts, List.mem_append, List.mem_map, Prod.mk.injEq, Option.mem_toList] at hb
    obtain (⟨b, hb, rfl, rfl⟩ | ⟨b, hb, rfl, rfl⟩) | ⟨b, hb, rfl, rfl⟩ := hb
    · exact hL _ _ h₁ _ hb
    · exact hv h₂ _ hb
    · exact hv h₃ _ hb
  | definitions h =>
    simp only [parts, List.mem_map, List.mem_filterMap, Prod.mk.injEq] at hb
    obtain ⟨b, ⟨c, hc, hb⟩, rfl, rfl⟩ := hb
    obtain ⟨_, -, hc⟩ := exists_of_forall₂ h hc
    cases hc with
    | mk value hvalue => exact hv hvalue _ hb
  | object h =>
    simp only [parts, List.mem_map, Prod.mk.injEq] at hb
    obtain ⟨p, hp, rfl, rfl⟩ := hb
    obtain ⟨_, -, hp⟩ := exists_of_forall₂ h hp
    cases hp with
    | mk value hvalue => exact hR _ _ _ hvalue

/-- The children of forms that correspond: each child by `R`, a statement list as a whole by `L`. -/
inductive LiftList (R : Category → α → β → Prop) (L : List α → List β → Prop) :
    List α → List β → Prop
  | nil : LiftList R L [] []
  | child {k a b} : R k a b → LiftList R L [a] [b]
  | list {as bs} : L as bs → LiftList R L as bs
  | append {as as' bs bs'} : LiftList R L as bs → LiftList R L as' bs' →
    LiftList R L (as ++ as') (bs ++ bs')

/-- Where parts have properties `Q` and `P` alike, so have the children. -/
theorem LiftList.exists_iff {R : Category → α → β → Prop} {L : List α → List β → Prop}
    {as : List α} {bs : List β} {P : α → Prop} {Q : β → Prop} (h : LiftList R L as bs)
    (hR : ∀ k a b, R k a b → (Q b ↔ P a))
    (hL : ∀ as bs, L as bs → ((∃ b ∈ bs, Q b) ↔ ∃ a ∈ as, P a)) :
    (∃ b ∈ bs, Q b) ↔ ∃ a ∈ as, P a := by
  induction h with
  | nil => simp
  | child hab => simp [hR _ _ _ hab]
  | list h => exact hL _ _ h
  | append _ _ ih ih' => simp only [List.mem_append, or_and_right, exists_or, ih, ih']

theorem Lift.children {R : Category → α → β → Prop} {L : List α → List β → Prop}
    {form : Form α} {form' : Form β} (h : form.Lift R L form') :
    LiftList R L form.children form'.children := by
  have hv {k : Category} {v : Option α} {w : Option β} (h : Option.Rel (R k) v w) :
      LiftList R L v.toList w.toList := by
    cases h with
    | none => exact .nil
    | some h => exact .child h
  have hs {k : Category} {as : List α} {bs : List β} (h : List.Forall₂ (R k) as bs) :
      LiftList R L as bs := by
    induction h with
    | nil => exact .nil
    | cons h _ ih => exact (LiftList.child h).append ih
  cases h with
  | empty | debugger | jump | string | number | boolean | null | undefined | identifier | this =>
    exact .nil
  | expression h | labeled h | unary h | update h | member h => exact .child h
  | block h | catch_ h | finally_ h | program h | declaration h | function h => exact .list h
  | exit h => exact hv h
  | array h => exact hs h
  | branch h₁ h₂ h₃ => exact (LiftList.child h₁).append ((LiftList.child h₂).append (hv h₃))
  | @loop kind _ _ _ _ h₁ h₂ =>
    cases kind with
    | whileDo => exact (LiftList.child h₁).append (.child h₂)
    | doWhile => exact (LiftList.child h₂).append (.child h₁)
  | with_ h₁ h₂ | binary h₁ h₂ | sequence h₁ h₂ | index h₁ h₂ | assign h₁ h₂ =>
    exact (LiftList.child h₁).append (.child h₂)
  | forIn h₁ h₂ h₃ | conditional h₁ h₂ h₃ =>
    exact (LiftList.child h₁).append ((LiftList.child h₂).append (.child h₃))
  | forLoop h₁ h₂ h₃ h₄ => exact (((hv h₁).append (hv h₂)).append (hv h₃)).append (.child h₄)
  | switch h₁ h₂ | call h₁ h₂ | construct h₁ h₂ => exact (LiftList.child h₁).append (hs h₂)
  | case h₁ h₂ => exact (hv h₁).append (.list h₂)
  | try_ h₁ h₂ h₃ => exact ((LiftList.list h₁).append (hv h₂)).append (hv h₃)
  | definitions h =>
    simp only [Form.children]
    induction h with
    | nil => exact .nil
    | @cons b b' bs bs' hb _ ih =>
      obtain ⟨value, hvalue⟩ := hb
      have hhead := (hv hvalue).append ih
      rw [List.filterMap_cons, List.filterMap_cons]
      generalize b.value = v at hhead ⊢
      cases v <;> cases value <;> exact hhead
  | object h =>
    simp only [Form.children]
    induction h with
    | nil => exact .nil
    | cons hp _ ih =>
      obtain ⟨value, hvalue⟩ := hp
      exact (LiftList.child hvalue).append ih

private theorem rel_option_map {α' β' : Type} {R : α → β → Prop} {R' : α' → β' → Prop} {f : α → α'}
    {g : β → β'} (hR : ∀ a b, R a b → R' (f a) (g b)) {v : Option α} {v' : Option β}
    (h : Option.Rel R v v') : Option.Rel R' (v.map f) (v'.map g) := by
  cases h with
  | none => exact .none
  | some h => exact .some (hR _ _ h)

private theorem forall₂_map {α' β' : Type} {R : α → β → Prop} {R' : α' → β' → Prop} {f : α → α'}
    {g : β → β'} (hR : ∀ a b, R a b → R' (f a) (g b)) {as : List α} {bs : List β}
    (h : List.Forall₂ R as bs) : List.Forall₂ R' (as.map f) (bs.map g) := by
  induction h with
  | nil => exact .nil
  | cons h _ ih => exact .cons (hR _ _ h) ih

/-- Forms that correspond still do when their parts are mapped alike. -/
theorem Lift.map {α' β' : Type} {R : Category → α → β → Prop} {L : List α → List β → Prop}
    {R' : Category → α' → β' → Prop} {L' : List α' → List β' → Prop} {f : α → α'} {g : β → β'}
    {form : Form α} {form' : Form β} (h : form.Lift R L form')
    (hR : ∀ k a b, R k a b → R' k (f a) (g b))
    (hL : ∀ as bs, L as bs → L' (as.map f) (bs.map g)) :
    (form.map f).Lift R' L' (form'.map g) := by
  have hv {k : Category} {v : Option α} {v' : Option β} (h : Option.Rel (R k) v v') :
      Option.Rel (R' k) (v.map f) (v'.map g) := rel_option_map (hR k) h
  have hs {k : Category} {as : List α} {bs : List β} (h : List.Forall₂ (R k) as bs) :
      List.Forall₂ (R' k) (as.map f) (bs.map g) := forall₂_map (hR k) h
  cases h with
  | empty => exact .empty
  | debugger => exact .debugger
  | jump => exact .jump
  | string => exact .string
  | number => exact .number
  | boolean => exact .boolean
  | null => exact .null
  | undefined => exact .undefined
  | identifier => exact .identifier
  | this => exact .this
  | expression h => exact .expression (hR _ _ _ h)
  | labeled h => exact .labeled (hR _ _ _ h)
  | unary h => exact .unary (hR _ _ _ h)
  | update h => exact .update (hR _ _ _ h)
  | member h => exact .member (hR _ _ _ h)
  | block h => exact .block (hL _ _ h)
  | catch_ h => exact .catch_ (hL _ _ h)
  | finally_ h => exact .finally_ (hL _ _ h)
  | program h => exact .program (hL _ _ h)
  | declaration h => exact .declaration (hL _ _ h)
  | function h => exact .function (hL _ _ h)
  | exit h => exact .exit (hv h)
  | array h => exact .array (hs h)
  | branch h₁ h₂ h₃ => exact .branch (hR _ _ _ h₁) (hR _ _ _ h₂) (hv h₃)
  | loop h₁ h₂ => exact .loop (hR _ _ _ h₁) (hR _ _ _ h₂)
  | with_ h₁ h₂ => exact .with_ (hR _ _ _ h₁) (hR _ _ _ h₂)
  | binary h₁ h₂ => exact .binary (hR _ _ _ h₁) (hR _ _ _ h₂)
  | sequence h₁ h₂ => exact .sequence (hR _ _ _ h₁) (hR _ _ _ h₂)
  | index h₁ h₂ => exact .index (hR _ _ _ h₁) (hR _ _ _ h₂)
  | assign h₁ h₂ => exact .assign (hR _ _ _ h₁) (hR _ _ _ h₂)
  | forIn h₁ h₂ h₃ => exact .forIn (hR _ _ _ h₁) (hR _ _ _ h₂) (hR _ _ _ h₃)
  | conditional h₁ h₂ h₃ => exact .conditional (hR _ _ _ h₁) (hR _ _ _ h₂) (hR _ _ _ h₃)
  | forLoop h₁ h₂ h₃ h₄ => exact .forLoop (hv h₁) (hv h₂) (hv h₃) (hR _ _ _ h₄)
  | switch h₁ h₂ => exact .switch (hR _ _ _ h₁) (hs h₂)
  | call h₁ h₂ => exact .call (hR _ _ _ h₁) (hs h₂)
  | construct h₁ h₂ => exact .construct (hR _ _ _ h₁) (hs h₂)
  | case h₁ h₂ => exact .case (hv h₁) (hL _ _ h₂)
  | try_ h₁ h₂ h₃ => exact .try_ (hL _ _ h₁) (hv h₂) (hv h₃)
  | definitions h =>
    refine .definitions (forall₂_map ?_ h)
    intro b b' hb
    cases hb with
    | mk v hv' => exact .mk (b.map f) (v.map g) (hv hv')
  | object h =>
    refine .object (forall₂_map ?_ h)
    intro p p' hp
    cases hp with
    | mk v hv' => exact .mk (p.map f) (g v) (hR _ _ _ hv')

theorem Lift.refl {R : Category → α → α → Prop} {L : List α → List α → Prop} {form : Form α}
    (hR : ∀ k, ∀ a ∈ form.children, R k a a)
    (hL : ∀ as, (∀ a ∈ as, a ∈ form.children) → L as as) : form.Lift R L form := by
  have hv {k : Category} {v : Option α} (h : ∀ a ∈ v.toList, a ∈ form.children) :
      Option.Rel (R k) v v := by
    cases v with
    | none => exact .none
    | some a => exact .some (hR k a (h a (.head _)))
  have hs {k : Category} {as : List α} (h : ∀ a ∈ as, a ∈ form.children) :
      List.Forall₂ (R k) as as :=
    List.forall₂_same.2 fun a ha => hR k a (h a ha)
  cases form with
  | definitions k bs m =>
    refine .definitions (List.forall₂_same.2 fun b hb => .mk b b.value (hv fun a ha => ?_))
    exact List.mem_filterMap.2 ⟨b, hb, Option.mem_toList.1 ha⟩
  | object ps =>
    refine .object (List.forall₂_same.2 fun p hp => .mk p p.value (hR _ _ ?_))
    exact List.mem_map_of_mem hp
  | loop k c body =>
    cases k with
    | whileDo => exact .loop (hR _ _ (.head _)) (hR _ _ (.tail _ (.head _)))
    | doWhile => exact .loop (hR _ _ (.tail _ (.head _))) (hR _ _ (.head _))
  | branch c body alternative =>
    exact .branch (hR _ _ (.head _)) (hR _ _ (.tail _ (.head _)))
      (hv fun a ha => .tail _ (.tail _ ha))
  | forLoop init c step body =>
    refine .forLoop (hv fun a ha => ?_) (hv fun a ha => ?_) (hv fun a ha => ?_) (hR _ _ ?_)
    · exact List.mem_append_left _ (List.mem_append_left _ (List.mem_append_left _ ha))
    · exact List.mem_append_left _ (List.mem_append_left _ (List.mem_append_right _ ha))
    · exact List.mem_append_left _ (List.mem_append_right _ ha)
    · exact List.mem_append_right _ (.head _)
  | case test body =>
    exact .case (hv fun a ha => List.mem_append_left _ ha)
      (hL _ fun a ha => List.mem_append_right _ ha)
  | try_ body handler finalizer =>
    refine .try_ (hL _ fun a ha => ?_) (hv fun a ha => ?_) (hv fun a ha => ?_)
    · exact List.mem_append_left _ (List.mem_append_left _ ha)
    · exact List.mem_append_left _ (List.mem_append_right _ ha)
    · exact List.mem_append_right _ ha
  | exit => exact .exit (hv fun a ha => ha)
  | array => exact .array (hs fun a ha => ha)
  | block | catch_ | finally_ | program | declaration | function =>
    constructor
    exact hL _ fun a ha => ha
  | switch | call | construct =>
    constructor
    · exact hR _ _ (.head _)
    · exact hs fun a ha => .tail _ ha
  | forIn | conditional =>
    constructor
    · exact hR _ _ (.head _)
    · exact hR _ _ (.tail _ (.head _))
    · exact hR _ _ (.tail _ (.tail _ (.head _)))
  | with_ | binary | assign | sequence | index =>
    constructor
    · exact hR _ _ (.head _)
    · exact hR _ _ (.tail _ (.head _))
  | expression | labeled | unary | update | member =>
    constructor
    exact hR _ _ (.head _)
  | _ => constructor

/-- The parts of an expression that is no function are expressions. -/
theorem expression_of_mem_parts {form : Form α} {k : Category} {a : α}
    (hs : form.isStatement = false) (ho : form.opensScope = false) (h : (k, a) ∈ form.parts) :
    k = .expression ∨ k = .condition ∨ k = .target := by
  have hall : ∀ p ∈ form.parts, p.1 = .expression ∨ p.1 = .condition ∨ p.1 = .target := by
    cases form with
    | function => cases ho
    | unary op x | update op x => cases op <;> simp [parts, UnaryOperator.operandCategory]
    | _ => first | (cases hs; done) | simp [parts]
  exact hall _ h

/-- An expression has statements below it only as the body of a function. -/
theorem statement_not_mem_parts {form : Form α} {a : α} (hs : form.isStatement = false)
    (ho : form.opensScope = false) : (.statement, a) ∉ form.parts := by
  intro h
  obtain h | h | h := expression_of_mem_parts hs ho h <;> cases h

@[simp] theorem isStatement_map (f : α → β) (form : Form α) :
    (form.map f).isStatement = form.isStatement := by
  cases form <;> rfl

theorem parts_map (f : α → β) (form : Form α) :
    (form.map f).parts = form.parts.map fun p => (p.1, f p.2) := by
  cases form with
  | definitions k bs h =>
    simp only [map, parts, List.filterMap_map, List.map_filterMap]
    congr 1
    simp [Function.comp_def, Binding.map]
  | _ => simp [map, parts, Option.toList_map, Property.map, Function.comp_def]

end Form

namespace Pass

variable {α β : Type} {J : (α : Type) → Pass α → (α → Prop) → Prop}

namespace Compositional

variable (hJ : Compositional J)

include hJ

theorem mapM_binding {f : α → Pass β} {R : α → β → Prop} {b : Binding α}
    (h : ∀ a ∈ b.value, J β (f a) (R a)) :
    J (Binding β) (b.mapM f) (Binding.Lift R b) :=
  hJ.bind (hJ.mapM_option h) fun v hv => hJ.pure (.mk b v hv)

theorem mapM_property {f : α → Pass β} {R : α → β → Prop} {p : Property α}
    (h : J β (f p.value) (R p.value)) : J (Property β) (p.mapM f) (Property.Lift R p) :=
  hJ.bind h fun v hv => hJ.pure (.mk p v hv)

variable {child : Role → α → Pass β} {statements : List α → Pass (List β)}
  {R : Category → α → β → Prop} {L : List α → List β → Prop}

/-- A visit gives a form like the one visited, if each part gives a corresponding part. -/
theorem traverse {form : Form α}
    (hc : ∀ k a, (k, a) ∈ form.parts → J β (child k.role a) (R k a))
    (hl : ∀ body ∈ form.body?, J (List β) (statements body) (L body)) :
    J (Form β) (form.traverse child statements) (form.Lift R L) := by
  have hv (k : Category) {a? : Option α} (h : ∀ a ∈ a?, (k, a) ∈ form.parts) :
      J (Option β) (a?.mapM (child k.role)) (Option.Rel (R k) a?) :=
    hJ.mapM_option fun a ha => hc k a (h a ha)
  have hs (k : Category) {as : List α} (h : ∀ a ∈ as, (k, a) ∈ form.parts) :
      J (List β) (as.mapM (child k.role)) (List.Forall₂ (R k) as) :=
    hJ.mapM_list fun a ha => hc k a (h a ha)
  cases form with
  | empty => exact hJ.pure .empty
  | debugger => exact hJ.pure .debugger
  | jump k l => exact hJ.pure .jump
  | string s => exact hJ.pure .string
  | number x => exact hJ.pure .number
  | boolean b => exact hJ.pure .boolean
  | null => exact hJ.pure .null
  | undefined => exact hJ.pure .undefined
  | identifier s => exact hJ.pure .identifier
  | this => exact hJ.pure .this
  | expression a =>
    exact hJ.bind (hc .expression a (by simp [Form.parts])) fun _ h => hJ.pure (.expression h)
  | labeled l a =>
    exact hJ.bind (hc .statement a (by simp [Form.parts])) fun _ h => hJ.pure (.labeled h)
  | member a s =>
    exact hJ.bind (hc .expression a (by simp [Form.parts])) fun _ h => hJ.pure (.member h)
  | unary op a =>
    have ha := hc op.operandCategory a (by simp [Form.parts])
    rw [op.role_operandCategory] at ha
    exact hJ.bind ha fun _ h => hJ.pure (.unary h)
  | update op a =>
    have ha := hc op.operandCategory a (by simp [Form.parts])
    rw [op.role_operandCategory] at ha
    exact hJ.bind ha fun _ h => hJ.pure (.update h)
  | block b => exact hJ.bind (hl b rfl) fun _ h => hJ.pure (.block h)
  | catch_ s b => exact hJ.bind (hl b rfl) fun _ h => hJ.pure (.catch_ h)
  | finally_ b => exact hJ.bind (hl b rfl) fun _ h => hJ.pure (.finally_ h)
  | program b => exact hJ.bind (hl b rfl) fun _ h => hJ.pure (.program h)
  | declaration l => exact hJ.bind (hl l.body rfl) fun _ h => hJ.pure (.declaration h)
  | function l => exact hJ.bind (hl l.body rfl) fun _ h => hJ.pure (.function h)
  | exit k v =>
    exact hJ.bind (hv .expression (by simp [Form.parts])) fun _ h => hJ.pure (.exit h)
  | branch c b a =>
    refine hJ.bind (hc .condition c (by simp [Form.parts])) fun _ h₁ => ?_
    refine hJ.bind (hc .statement b (by simp [Form.parts])) fun _ h₂ => ?_
    exact hJ.bind (hv .statement (by simp +contextual [Form.parts])) fun _ h₃ =>
      hJ.pure (.branch h₁ h₂ h₃)
  | loop k c b =>
    refine hJ.bind (hc .condition c (by simp [Form.parts])) fun _ h₁ => ?_
    exact hJ.bind (hc .statement b (by simp [Form.parts])) fun _ h₂ => hJ.pure (.loop h₁ h₂)
  | forLoop i c s b =>
    refine hJ.bind (hv .head (by simp [Form.parts])) fun _ h₁ => ?_
    refine hJ.bind (hv .condition (by simp [Form.parts])) fun _ h₂ => ?_
    refine hJ.bind (hv .expression (by simp [Form.parts])) fun _ h₃ => ?_
    exact hJ.bind (hc .statement b (by simp [Form.parts])) fun _ h₄ =>
      hJ.pure (.forLoop h₁ h₂ h₃ h₄)
  | forIn i a b =>
    refine hJ.bind (hc .cursor i (by simp [Form.parts])) fun _ h₁ => ?_
    refine hJ.bind (hc .expression a (by simp [Form.parts])) fun _ h₂ => ?_
    exact hJ.bind (hc .statement b (by simp [Form.parts])) fun _ h₃ => hJ.pure (.forIn h₁ h₂ h₃)
  | switch a cs =>
    refine hJ.bind (hc .expression a (by simp [Form.parts])) fun _ h₁ => ?_
    exact hJ.bind (hs .clause (by simp [Form.parts])) fun _ h₂ => hJ.pure (.switch h₁ h₂)
  | case t b =>
    refine hJ.bind (hv .expression (by simp [Form.parts])) fun _ h₁ => ?_
    exact hJ.bind (hl b rfl) fun _ h₂ => hJ.pure (.case h₁ h₂)
  | try_ b h f =>
    refine hJ.bind (hl b rfl) fun _ h₁ => ?_
    refine hJ.bind (hv .handler (by simp [Form.parts])) fun _ h₂ => ?_
    exact hJ.bind (hv .finalizer (by simp [Form.parts])) fun _ h₃ => hJ.pure (.try_ h₁ h₂ h₃)
  | with_ a b =>
    refine hJ.bind (hc .expression a (by simp [Form.parts])) fun _ h₁ => ?_
    exact hJ.bind (hc .statement b (by simp [Form.parts])) fun _ h₂ => hJ.pure (.with_ h₁ h₂)
  | definitions k bs m =>
    refine hJ.bind (hJ.mapM_list fun b hb => hJ.mapM_binding fun a ha => hc .expression a ?_)
      fun _ h => hJ.pure (.definitions h)
    simp only [Form.parts, List.mem_map, List.mem_filterMap]
    exact ⟨a, ⟨b, hb, ha⟩, rfl⟩
  | binary op a b =>
    refine hJ.bind (hc .expression a (by simp [Form.parts])) fun _ h₁ => ?_
    exact hJ.bind (hc .expression b (by simp [Form.parts])) fun _ h₂ => hJ.pure (.binary h₁ h₂)
  | assign op a b =>
    refine hJ.bind (hc .target a (by simp [Form.parts])) fun _ h₁ => ?_
    exact hJ.bind (hc .expression b (by simp [Form.parts])) fun _ h₂ => hJ.pure (.assign h₁ h₂)
  | conditional c a b =>
    refine hJ.bind (hc .condition c (by simp [Form.parts])) fun _ h₁ => ?_
    refine hJ.bind (hc .expression a (by simp [Form.parts])) fun _ h₂ => ?_
    exact hJ.bind (hc .expression b (by simp [Form.parts])) fun _ h₃ =>
      hJ.pure (.conditional h₁ h₂ h₃)
  | sequence a b =>
    refine hJ.bind (hc .expression a (by simp [Form.parts])) fun _ h₁ => ?_
    exact hJ.bind (hc .expression b (by simp [Form.parts])) fun _ h₂ => hJ.pure (.sequence h₁ h₂)
  | call a es =>
    refine hJ.bind (hc .expression a (by simp [Form.parts])) fun _ h₁ => ?_
    exact hJ.bind (hs .expression (by simp +contextual [Form.parts])) fun _ h₂ =>
      hJ.pure (.call h₁ h₂)
  | construct a es =>
    refine hJ.bind (hc .expression a (by simp [Form.parts])) fun _ h₁ => ?_
    exact hJ.bind (hs .expression (by simp +contextual [Form.parts])) fun _ h₂ =>
      hJ.pure (.construct h₁ h₂)
  | index a b =>
    refine hJ.bind (hc .expression a (by simp [Form.parts])) fun _ h₁ => ?_
    exact hJ.bind (hc .expression b (by simp [Form.parts])) fun _ h₂ => hJ.pure (.index h₁ h₂)
  | array es => exact hJ.bind (hs .expression (by simp [Form.parts])) fun _ h => hJ.pure (.array h)
  | object ps =>
    refine hJ.bind (hJ.mapM_list fun p hp => hJ.mapM_property (hc .expression p.value ?_))
      fun _ h => hJ.pure (.object h)
    simp only [Form.parts, List.mem_map]
    exact ⟨p, hp, rfl⟩

end Compositional

end Pass

end ScriptMinifier
