import ScriptMinifier.Tree.Attach

namespace ScriptMinifier

/-- A syntax tree: a form over nodes, with the span it was read from. -/
inductive Node where
  | mk (form : Form Node) (span : Span)

namespace Node

def form : Node → Form Node
  | ⟨form, _⟩ => form

def span : Node → Span
  | ⟨_, span⟩ => span

@[simp] theorem form_mk (form : Form Node) (span : Span) : (mk form span).form = form := rfl

@[simp] theorem span_mk (form : Form Node) (span : Span) : (mk form span).span = span := rfl

instance : Inhabited Node := ⟨⟨.empty, default⟩⟩

/-- The empty statement. -/
def empty (span : Span) : Node := ⟨.empty, span⟩

def children (n : Node) : List Node := n.form.children

private theorem sizeOf_body_lt {l : Lambda Node} : sizeOf l.body < sizeOf l := by
  obtain ⟨_, _, _, _, _⟩ := l
  simp
  omega

theorem sizeOf_lt_of_mem_children {c : Node} {form : Form Node} (h : c ∈ form.children) :
    sizeOf c < sizeOf form := by
  have hb := @sizeOf_body_lt
  cases form with
  | empty | debugger | jump | string | number | boolean | null | undefined | identifier | this =>
    simp [Form.children] at h
  | expression | labeled | unary | update | member =>
    simp only [Form.children, List.mem_singleton] at h
    subst h
    simp
    try omega
  | block | catch_ | finally_ | program | array =>
    have := List.sizeOf_lt_of_mem h
    simp only [Form.children] at this
    simp
    omega
  | declaration l | function l =>
    have := List.sizeOf_lt_of_mem h
    simp only [Form.children] at this
    have := hb (l := l)
    simp
    omega
  | exit k v =>
    simp only [Form.children, Option.mem_toList] at h
    subst h
    simp
    omega
  | branch a b v =>
    simp only [Form.children, List.mem_cons, Option.mem_toList] at h
    rcases h with rfl | rfl | rfl <;> simp <;> omega
  | loop k a b =>
    have : c = a ∨ c = b := by cases k <;> simpa [Form.children, or_comm] using h
    rw [Form.loop.sizeOf_spec]
    rcases this with rfl | rfl <;> omega
  | forLoop i c s b =>
    simp only [Form.children, List.mem_append, Option.mem_toList, List.mem_singleton] at h
    rcases h with ((rfl | rfl) | rfl) | rfl <;> simp <;> omega
  | forIn | conditional =>
    simp only [Form.children, List.mem_cons, List.not_mem_nil, or_false] at h
    rcases h with rfl | rfl | rfl <;> simp <;> omega
  | with_ | binary | assign | sequence | index =>
    simp only [Form.children, List.mem_cons, List.not_mem_nil, or_false] at h
    rcases h with rfl | rfl <;>
    · simp only [Form.with_.sizeOf_spec, Form.binary.sizeOf_spec, Form.assign.sizeOf_spec,
        Form.sequence.sizeOf_spec, Form.index.sizeOf_spec]
      omega
  | switch | call | construct =>
    simp only [Form.children, List.mem_cons] at h
    rcases h with rfl | h
    · simp
      omega
    · have := List.sizeOf_lt_of_mem h
      simp
      omega
  | case t b =>
    simp only [Form.children, List.mem_append, Option.mem_toList] at h
    rcases h with rfl | h
    · simp
      omega
    · have := List.sizeOf_lt_of_mem h
      simp
      omega
  | try_ b x y =>
    simp only [Form.children, List.mem_append, Option.mem_toList] at h
    rcases h with (h | rfl) | rfl
    · have := List.sizeOf_lt_of_mem h
      simp
      omega
    · simp
      omega
    · simp
      omega
  | definitions k bs m =>
    simp only [Form.children, List.mem_filterMap] at h
    obtain ⟨⟨_, _, _⟩, hm, rfl⟩ := h
    have := List.sizeOf_lt_of_mem hm
    simp at this ⊢
    omega
  | object ps =>
    simp only [Form.children, List.mem_map] at h
    obtain ⟨⟨_, _, _, _⟩, hm, rfl⟩ := h
    have := List.sizeOf_lt_of_mem hm
    simp at this ⊢
    omega

theorem sizeOf_lt_of_mem {c n : Node} (h : c ∈ n.children) : sizeOf c < sizeOf n := by
  obtain ⟨form, span⟩ := n
  have := sizeOf_lt_of_mem_children h
  simp only [form_mk] at this
  simp
  omega

/-- Induction over children. -/
theorem induct {motive : Node → Prop} (h : ∀ n, (∀ c ∈ n.children, motive c) → motive n)
    (n : Node) : motive n :=
  h n fun c _ => induct h c
termination_by sizeOf n
decreasing_by exact sizeOf_lt_of_mem ‹_›

end Node

end ScriptMinifier
