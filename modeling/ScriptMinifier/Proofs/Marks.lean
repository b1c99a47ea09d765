import ScriptMinifier.Proofs.Cleanup
import ScriptMinifier.Proofs.Surface

namespace ScriptMinifier

namespace Node

variable {n m : Node}

/-- The node at the end of a path, which tells at each step the number of a child. -/
def at? : Node → List Nat → Option Node
  | n, [] => some n
  | n, i :: p => n.children[i]?.bind fun c => c.at? p

/-- The path enters no function. -/
def isOpen : Node → List Nat → Bool
  | _, [] => true
  | n, i :: p => Hoist.searchesBelow n && n.children[i]?.any fun c => c.isOpen p

/-- A search for declarations comes to what stands at the end of an open path. -/
theorem mem_visited_iff : m ∈ n.visited Hoist.searchesBelow ↔
    ∃ p, n.isOpen p = true ∧ n.at? p = some m := by
  induction n using Node.induct with
  | h n ih =>
    rw [visited_eq, List.mem_cons]
    constructor
    · rintro (rfl | hm)
      · exact ⟨[], rfl, rfl⟩
      · by_cases hs : Hoist.searchesBelow n = true
        · rw [if_pos hs] at hm
          obtain ⟨c, hc, hm⟩ := List.mem_flatMap.1 hm
          obtain ⟨p, hopen, hat⟩ := (ih c hc).1 hm
          obtain ⟨i, hi⟩ := List.mem_iff_getElem?.1 hc
          exact ⟨i :: p, by simp [isOpen, hs, hi, hopen], by simp [at?, hi, hat]⟩
        · rw [if_neg hs] at hm
          cases hm
    · rintro ⟨p, hopen, hat⟩
      cases p with
      | nil => exact .inl (Option.some.inj hat).symm
      | cons i p =>
        obtain ⟨hs, hopen⟩ := Bool.and_eq_true_iff.1 hopen
        obtain ⟨c, hi, hat⟩ := Option.bind_eq_some_iff.1 hat
        rw [hi] at hopen
        have hc : c ∈ n.children := List.mem_of_getElem? hi
        have hm := (ih c hc).2 ⟨p, hopen, hat⟩
        exact .inr (by rw [if_pos hs]; exact List.mem_flatMap.2 ⟨c, hc, hm⟩)

/-- A tree with all its marks erased. -/
def unmarked (n : Node) : Node :=
  ⟨(n.form.attach.map fun c => unmarked c.1).withHoisted false, n.span⟩
termination_by sizeOf n
decreasing_by exact sizeOf_lt_of_mem c.2

theorem unmarked_eq (n : Node) :
    n.unmarked = ⟨(n.form.map unmarked).withHoisted false, n.span⟩ := by
  have h := Form.map_map unmarked Subtype.val n.form.attach
  rw [Form.attach_map_val] at h
  rw [unmarked, h]

end Node

namespace Hoist

variable {h : Hoist} {body : List Node}

@[simp] theorem isHoisted_mark (n : Node) :
    (h.mark n).form.isHoisted = (n.form.isHoisted || h.hoists n) := by
  obtain ⟨form, span⟩ := n
  rw [mark_mk]
  cases form with
  | declaration | function => rfl
  | definitions kind bs hoisted => cases kind <;> rfl
  | _ => rfl

@[simp] theorem children_mark (n : Node) : (h.mark n).children =
    if searchesBelow n then n.children.map h.mark else n.children := by
  obtain ⟨form, span⟩ := n
  rw [mark_mk, Node.children, Node.form_mk, Form.children_withHoisted]
  split
  · exact Form.children_map ..
  · rfl

/-- Nothing but marks tells a marked tree from what it was. -/
theorem unmarked_mark (n : Node) : (h.mark n).unmarked = n.unmarked := by
  induction n using Node.induct with
  | h n ih =>
    obtain ⟨form, span⟩ := n
    have hbelow : (form.map h.mark).map Node.unmarked = form.map Node.unmarked := by
      rw [← Form.map_map]
      exact Form.map_congr ih
    rw [mark_mk, Node.unmarked_eq, Node.unmarked_eq]
    simp only [Node.form_mk, Node.span_mk, Form.map_withHoisted, Form.withHoisted_withHoisted]
    split
    · rw [hbelow]
    · rfl

/-- What stands at the end of a path is marked if no function stands on the way. -/
theorem at?_mark (n : Node) (p : List Nat) : (h.mark n).at? p =
    (n.at? p).map fun m => if n.isOpen p then h.mark m else m := by
  induction p generalizing n with
  | nil => rfl
  | cons i p ih =>
    rw [Node.at?, Node.at?, Node.isOpen, children_mark]
    by_cases hs : searchesBelow n = true
    · rw [if_pos hs, List.getElem?_map]
      cases n.children[i]? with
      | none => rfl
      | some c => simpa [hs] using ih c
    · simp [hs]

/-- The second tree is the first with the marks of what is hoisted out of it. -/
structure Marks (h : Hoist) (n n' : Node) : Prop where
  unmarked : n'.unmarked = n.unmarked
  isHoisted (p : List Nat) : (n'.at? p).map (·.form.isHoisted) =
    (n.at? p).map fun m => m.form.isHoisted || (n.isOpen p && h.hoists m)

theorem marks_mark (n : Node) : h.Marks n (h.mark n) where
  unmarked := unmarked_mark n
  isHoisted p := by
    rw [at?_mark, Option.map_map]
    congr 1
    funext m
    cases n.isOpen p <;> simp

theorem mem_reach_iff {m : Node} :
    m ∈ reach body ↔ ∃ n ∈ body, ∃ p, n.isOpen p = true ∧ n.at? p = some m := by
  simp only [reach, List.mem_flatMap, Node.mem_visited_iff]

/-- The names that `h` hoists out of a scope. -/
def hoistedNames (h : Hoist) (body : List Node) : List String :=
  if h.vars then namesIn body else []

theorem declares_hoistedNames (span : Span) (body : List Node) :
    Declares (h.hoistedNames body) span (declaration (h.varsIn body) span) := by
  rw [hoistedNames]
  cases hv : h.vars with
  | true => exact declares_declaration hv
  | false =>
    rw [varsIn, hv]
    exact .inl ⟨rfl, rfl⟩

theorem extend_hoistedNames (params : List String) (body : List Node) :
    extend params ((h.varsIn body).map (·.name)) =
      params ++ (h.hoistedNames body).filter (· ∉ params) := by
  cases hv : h.vars with
  | true => rw [map_name_varsIn hv, hoistedNames, if_pos hv, extend_namesIn]
  | false => simp [varsIn, hoistedNames, hv, extend]

/-- Hoisting puts before a body one unmarked `var` for its names, unless these become parameters,
and its functions as they were. Of the body itself it changes no more than the marks of the
declarations that it hoists. These stand at the ends of the ways that enter no function, and are
taken once each, in source order. -/
theorem surface_outcome (h : Hoist) (params : Option (List String)) (span : Span)
    (body : List Node) :
    (∃ vars rest, (h.surface params span body).1 =
        vars ++ (if h.functions then (reach body).filter isFunction else []) ++ rest ∧
      Declares (if params.isSome then [] else h.hoistedNames body) span vars ∧
      List.Forall₂ h.Marks body rest) ∧
    (h.surface params span body).2 =
      params.map (fun ps => ps ++ (h.hoistedNames body).filter (· ∉ ps)) ∧
    (∀ m, m ∈ reach body ↔ ∃ n ∈ body, ∃ p, n.isOpen p = true ∧ n.at? p = some m) ∧
    Reaches ⟨.program body, span⟩ (reach body) ∧
    (h.functions = false → h.vars = false → h.surface params span body = (body, params)) := by
  have hmarks : List.Forall₂ h.Marks body (body.map h.mark) :=
    List.forall₂_map_right_iff.2 (List.forall₂_same.2 fun n _ => marks_mark n)
  refine ⟨?_, ?_, fun m => mem_reach_iff, reaches_reach body span, ?_⟩
  · cases params with
    | some ps => exact ⟨[], body.map h.mark, rfl, .inl ⟨rfl, rfl⟩, hmarks⟩
    | none =>
      refine ⟨declaration (h.varsIn body) span, body.map h.mark, ?_,
        declares_hoistedNames span body, hmarks⟩
      exact (List.append_assoc ..).symm
  · cases params with
    | some ps => exact congrArg some (extend_hoistedNames ps body)
    | none => rfl
  · obtain ⟨functions, vars⟩ := h
    rintro rfl rfl
    exact surface_idle params span body

end Hoist

end ScriptMinifier
