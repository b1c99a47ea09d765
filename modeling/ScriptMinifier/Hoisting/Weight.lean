import ScriptMinifier.Hoisting
import ScriptMinifier.Tree.Weight

namespace ScriptMinifier

namespace Hoist

@[simp] theorem weight_mark (h : Hoist) (n : Node) : (h.mark n).weight = n.weight :=
  Node.weight_amend _ _ n

theorem length_insert_le (bs : List (Binding Node)) (b : Binding Node) :
    (insert bs b).length ≤ bs.length + 1 := by
  induction bs with
  | nil => simp [insert]
  | cons c cs ih =>
    rw [insert]
    split
    · simp
    · simpa using ih

theorem length_distinct_le (bs : List (Binding Node)) : (distinct bs).length ≤ bs.length := by
  suffices h : ∀ as : List (Binding Node), (bs.foldl insert as).length ≤ as.length + bs.length by
    simpa [distinct] using h []
  induction bs with
  | nil => simp
  | cons b bs ih =>
    intro as
    have := length_insert_le as b
    have := ih (insert as b)
    simp only [List.foldl_cons, List.length_cons]
    omega

theorem varsOf_lt (n : Node) : 4 * (varsOf n).length < n.form.ownWeight := by
  obtain ⟨form, span⟩ := n
  cases form with
  | definitions k bs h =>
    have : varsOf ⟨.definitions k bs h, span⟩ = bs ∨ varsOf ⟨.definitions k bs h, span⟩ = [] := by
      cases k <;> simp [varsOf]
    rcases this with hv | hv <;>
    · rw [hv]
      simp only [Node.form_mk, Form.ownWeight, List.length_nil]
      omega
  | _ => simp [varsOf, Form.ownWeight]

theorem vars_reach_le (body : List Node) :
    4 * ((reach body).flatMap varsOf).length + (reach body).length ≤
      Node.totalWeight body := by
  have hv (ns : List Node) : 4 * (ns.flatMap varsOf).length + ns.length ≤
      total (fun m => m.form.ownWeight) ns := by
    induction ns with
    | nil => simp
    | cons n ns ih =>
      have := varsOf_lt n
      simp only [List.flatMap_cons, List.length_append, total_cons, List.length_cons]
      omega
  induction body with
  | nil => simp [reach]
  | cons n ns ih =>
    have := hv (n.visited searchesBelow)
    have := Node.ownWeight_visited_le searchesBelow n
    simp only [reach] at ih
    simp only [reach, List.flatMap_cons, List.flatMap_append, List.length_append,
      Node.totalWeight_cons]
    omega

theorem weight_lt_of_mem_declaration {h : Hoist} {body : List Node} {span : Span} {c : Node}
    (hc : c ∈ declaration (h.varsIn body) span) : c.weight < 1 + Node.totalWeight body := by
  have hl : (h.varsIn body).length ≤ ((reach body).flatMap varsOf).length := by
    rw [varsIn]
    split
    · exact length_distinct_le _
    · simp
  have := vars_reach_le body
  rw [declaration] at hc
  split at hc
  · simp at hc
  · rw [List.mem_singleton.1 hc, Node.weight_eq_totalWeight]
    have : (h.varsIn body).filterMap (fun _ => (none : Option Node)) = [] := by
      simp
    have hp : 0 < (h.varsIn body).length := by
      rw [List.length_pos_iff]
      simpa using ‹¬(h.varsIn body).isEmpty = true›
    have : 0 < (reach body).length := by
      rw [List.length_pos_iff]
      intro hr
      rw [hr] at hl
      simp only [List.flatMap_nil, List.length_nil] at hl
      omega
    simp [Node.children, Form.children, Form.ownWeight, List.filterMap_map, Function.comp_def, *]
    omega

theorem weight_le_of_mem_functionsIn {h : Hoist} {body : List Node} {c : Node}
    (hc : c ∈ h.functionsIn body) : c.weight ≤ Node.totalWeight body := by
  rw [functionsIn] at hc
  split at hc
  · obtain ⟨n, hn, hcn⟩ := List.mem_flatMap.1 (List.mem_filter.1 hc).1
    have := Node.weight_le_of_mem_visited hcn
    have := Node.weight_le_totalWeight hn
    omega
  · simp at hc

theorem weight_lt_of_mem_surface {h : Hoist} {params : Option (List String)} {span : Span}
    {body : List Node} {c : Node} (hc : c ∈ (h.surface params span body).1) :
    c.weight < 1 + Node.totalWeight body := by
  have hr : c ∈ h.functionsIn body ++ body.map h.mark → c.weight < 1 + Node.totalWeight body := by
    intro hc
    rcases List.mem_append.1 hc with hc | hc
    · have := weight_le_of_mem_functionsIn hc
      omega
    · obtain ⟨n, hn, rfl⟩ := List.mem_map.1 hc
      have := Node.weight_le_totalWeight hn
      rw [weight_mark]
      omega
  cases params with
  | some params => exact hr hc
  | none =>
    rcases List.mem_append.1 hc with hc | hc
    · exact weight_lt_of_mem_declaration hc
    · exact hr hc

/-- Whatever a scope holds after hoisting weighs less than the scope. -/
theorem weight_lt_of_mem_surfaceForm {h : Hoist} {n c : Node}
    (hc : c ∈ (h.surfaceForm n.span n.form).children) : c.weight < n.weight := by
  obtain ⟨form, span⟩ := n
  cases form with
  | program body =>
    have := weight_lt_of_mem_surface hc
    rw [Node.weight_eq_totalWeight ⟨_, _⟩]
    exact this
  | declaration l =>
    have := weight_lt_of_mem_surface hc
    rw [Node.weight_eq_totalWeight ⟨_, _⟩]
    exact this
  | function l =>
    have := weight_lt_of_mem_surface hc
    rw [Node.weight_eq_totalWeight ⟨_, _⟩]
    exact this
  | _ => exact Node.weight_lt_of_mem hc

end Hoist

theorem Node.weight_commaJoined (n : Node) (ns : List Node) :
    (n.commaJoined ns).weight = n.weight + (ns.length + Node.totalWeight ns) := by
  induction ns generalizing n with
  | nil => simp [Node.commaJoined]
  | cons m ms ih =>
    rw [Node.commaJoined, Node.weight_eq_totalWeight]
    simp [Node.children, Form.children, Form.ownWeight, ih]
    omega

/-- The assignments of a declaration weigh less than the declaration. -/
theorem weight_lt_of_assignments? {kind : DeclarationKind} {bs : List (Binding Node)}
    {hoisted : Bool} {span : Span} {c : Node} (hc : assignments? bs = some c) :
    c.weight < (Node.mk (.definitions kind bs hoisted) span).weight := by
  have ha : ∀ bs : List (Binding Node), (bs.filterMap Binding.assignment?).length +
      Node.totalWeight (bs.filterMap Binding.assignment?) ≤
      4 * bs.length + Node.totalWeight (bs.filterMap (·.value)) := by
    intro bs
    induction bs with
    | nil => simp
    | cons b bs ih =>
      obtain ⟨name, value, span⟩ := b
      cases value with
      | none =>
        simp only [List.filterMap_cons, Binding.assignment?, Option.map_none,
          List.length_cons] at ih ⊢
        omega
      | some v =>
        simp [Binding.assignment?, Node.weight_eq_totalWeight ⟨.assign _ _ _, _⟩,
          Node.weight_eq_totalWeight ⟨.identifier _, _⟩, Node.children, Form.children,
          Form.ownWeight] at ih ⊢
        omega
  have := ha bs
  rw [assignments?] at hc
  rw [Node.weight_eq_totalWeight ⟨_, _⟩]
  split at hc
  · simp at hc
  · rename_i n ns hns
    obtain rfl := Option.some.inj hc
    rw [hns] at this
    rw [Node.weight_commaJoined]
    simp [Node.children, Form.children, Form.ownWeight] at this ⊢
    omega

end ScriptMinifier
