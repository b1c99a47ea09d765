import Mathlib
import ScriptMinifier.Proofs.Places
import ScriptMinifier.Proofs.Visits
import ScriptMinifier.Tree.Walk

namespace ScriptMinifier

@[simp] theorem Form.isHoisted_map {α β : Type} (f : α → β) (form : Form α) :
    (form.map f).isHoisted = form.isHoisted := by
  cases form <;> rfl

/-- The places on the way from a node to one below it. -/
abbrev Way := List Place

namespace Node

/-- The node at the end of a way. -/
def find? : Node → Way → Option Node
  | n, [] => some n
  | n, i :: p => (n.form.child? i).bind fun c => c.find? p

/-- The order of the source: a node comes before what is below it, and what stands at one place of
a form before what stands at a later one. -/
inductive Before : Node → Way → Way → Prop where
  | root {n i p} : Before n [] (i :: p)
  | beside {n i j p q} : n.form.Precedes i j → Before n (i :: p) (j :: q)
  | inside {n c i p q} : n.form.child? i = some c → Before c p q → Before n (i :: p) (i :: q)

variable {n n' c : Node} {p q : Way} {i j : Place} {descend : Node → Bool}

theorem mem_children_of_child? (h : n.form.child? i = some c) : c ∈ n.children := by
  rw [children, ← Form.map_snd_slots]
  exact List.mem_map.2 ⟨_, Form.child?_eq_some_iff.1 h, rfl⟩

theorem mem_children_of_mem_slots {s : Place × Node} (h : s ∈ n.form.slots) : s.2 ∈ n.children :=
  mem_children_of_child? (Form.child?_eq_some_iff.2 h)

theorem Before.irrefl (p : Way) : ¬ Before n p p := by
  intro h
  induction p generalizing n with
  | nil => cases h
  | cons i p ih =>
    cases h with
    | beside h => exact Form.not_precedes_self _ i h
    | inside hc h => exact ih h

/-- The ways into a form, when `below` has those from its children on. -/
def waysInto (form : Form Node) (below : Node → List Way) : List Way :=
  form.slots.flatMap fun s => (below s.2).map (s.1 :: ·)

theorem mem_waysInto_iff {form : Form Node} {below : Node → List Way} :
    i :: p ∈ waysInto form below ↔ ∃ c, form.child? i = some c ∧ p ∈ below c := by
  simp [waysInto, Form.child?_eq_some_iff]

/-- The ways that a walk takes, in their order. -/
def ways (descend : Node → Bool) (n : Node) : List Way :=
  [] :: if descend n then n.form.slots.attach.flatMap fun s => (ways descend s.1.2).map (s.1.1 :: ·)
    else []
termination_by sizeOf n
decreasing_by exact sizeOf_lt_of_mem (mem_children_of_mem_slots s.2)

theorem ways_eq (descend : Node → Bool) (n : Node) : n.ways descend =
    [] :: if descend n then waysInto n.form (ways descend) else [] := by
  have h := List.flatMap_map Subtype.val (fun s : Place × Node => (s.2.ways descend).map (s.1 :: ·))
    n.form.slots.attach
  rw [List.attach_map_subtype_val] at h
  rw [ways, waysInto, h]

/-- The walk visits what stands at the ends of its ways. -/
theorem map_find?_ways (descend : Node → Bool) (n : Node) :
    (n.ways descend).map n.find? = (n.visited descend).map some := by
  induction n using Node.induct with
  | h n ih =>
    rw [ways_eq, visited_eq, children, ← Form.map_snd_slots]
    by_cases hd : descend n = true
    · simp only [hd, if_true, waysInto, List.map_cons, List.map_flatMap, List.flatMap_map,
        List.map_map]
      congr 1
      apply List.flatMap_congr
      intro s hs
      rw [← ih s.2 (mem_children_of_mem_slots hs)]
      apply List.map_congr_left
      intro p hp
      simp [find?, Form.child?_eq_some_iff.2 hs]
    · simp [hd, find?]

/-- The ways are in the order of the source. -/
theorem pairwise_ways (descend : Node → Bool) (n : Node) :
    (n.ways descend).Pairwise n.Before := by
  induction n using Node.induct with
  | h n ih =>
    rw [ways_eq, List.pairwise_cons]
    by_cases hd : descend n = true
    · simp only [hd, if_true]
      constructor
      · intro p hp
        obtain ⟨s, hs, hp⟩ := List.mem_flatMap.1 hp
        obtain ⟨p, hp, rfl⟩ := List.mem_map.1 hp
        exact .root
      · rw [waysInto, List.pairwise_flatMap]
        constructor
        · intro s hs
          rw [List.pairwise_map]
          apply (ih s.2 (mem_children_of_mem_slots hs)).imp
          intro p q hpq
          exact .inside (Form.child?_eq_some_iff.2 hs) hpq
        · apply n.form.pairwise_slots.imp
          intro s t hst x hx y hy
          obtain ⟨p, hp, rfl⟩ := List.mem_map.1 hx
          obtain ⟨q, hq, rfl⟩ := List.mem_map.1 hy
          exact .beside hst
    · simp [hd]

theorem nodup_of_pairwise {ways : List Way} (h : ways.Pairwise n.Before) : ways.Nodup := by
  apply h.imp
  intro p q hpq heq
  subst heq
  exact Before.irrefl p hpq

/-- A walk comes to a node if it goes below all nodes on the way. -/
theorem mem_ways_iff : p ∈ n.ways descend ↔ (n.find? p).isSome = true ∧
    ∀ q, q <+: p → q ≠ p → (n.find? q).any descend = true := by
  induction p generalizing n with
  | nil =>
    rw [ways_eq]
    simp [find?]
  | cons i p ih =>
    have hmem : i :: p ∈ n.ways descend ↔
        descend n = true ∧ ∃ c, n.form.child? i = some c ∧ p ∈ c.ways descend := by
      rw [ways_eq]
      by_cases hd : descend n = true
      · simp [hd, mem_waysInto_iff]
      · simp [hd]
    rw [hmem]
    constructor
    · rintro ⟨hd, c, hc, hp⟩
      obtain ⟨hsome, hall⟩ := ih.1 hp
      refine ⟨by simpa [find?, hc] using hsome, ?_⟩
      intro q hq hne
      cases q with
      | nil => simpa [find?] using hd
      | cons j q =>
        obtain ⟨rfl, hprefix⟩ := List.cons_prefix_cons.1 hq
        simpa [find?, hc] using hall q hprefix (by simpa using hne)
    · rintro ⟨hsome, hall⟩
      cases hc : n.form.child? i with
      | none => simp [find?, hc] at hsome
      | some c =>
        refine ⟨by simpa [find?] using hall [] (by simp) (by simp), c, rfl, ih.2 ⟨?_, ?_⟩⟩
        · simpa [find?, hc] using hsome
        · intro q hq hne
          have hprefix : i :: q <+: i :: p := List.cons_prefix_cons.2 ⟨rfl, hq⟩
          simpa [find?, hc] using hall (i :: q) hprefix (by simpa using hne)

/-- A tree with the spans of its nodes erased. -/
def unspanned (n : Node) : Node := ⟨n.form.attach.map fun c => unspanned c.1, default⟩
termination_by sizeOf n
decreasing_by exact sizeOf_lt_of_mem c.2

theorem unspanned_eq (n : Node) : n.unspanned = ⟨n.form.map unspanned, default⟩ := by
  have h := Form.map_map unspanned Subtype.val n.form.attach
  rw [Form.attach_map_val] at h
  rw [unspanned, h]

/-- The second tree is the first with these spans at the ends of these ways. -/
structure Respanned (n : Node) (ways : List Way) (spans : List Span) (n' : Node) : Prop where
  unspanned : n'.unspanned = n.unspanned
  visited : ways.map (fun p => (n'.find? p).map span) = spans.map some
  others : ∀ p ∉ ways, (n'.find? p).map span = (n.find? p).map span

variable {m : Type → Type} [Monad m] [LawfulMonad m] {visit : Node → m Span}

open Visits

/-- Children in the same places that have got spans, piece by piece, have got them all. -/
theorem respanned_form {parts : Node → List Node} {below : Node → List Way}
    {z : Form (Node × Node)} {spans : List Span}
    (h : Pieces parts (fun c => c.Respanned (below c)) (z.children.map Prod.fst) spans
      (z.children.map Prod.snd)) (own : Span) :
    (mk (z.map Prod.fst) own).Respanned (waysInto (z.map Prod.fst) below) spans
      ⟨z.map Prod.snd, own⟩ where
  unspanned := by
    rw [unspanned_eq, unspanned_eq, form_mk, form_mk, ← Form.map_map, ← Form.map_map]
    congr 1
    apply Form.map_congr
    intro x hx
    obtain ⟨piece, hpiece⟩ := h.exists_of_mem hx
    exact hpiece.unspanned
  visited := by
    rw [← Form.map_snd_slots, List.map_map, List.map_map] at h
    rw [waysInto, Form.slots_map, List.flatMap_map, List.map_flatMap]
    apply h.flatMap_eq
    intro s hs piece hpiece
    rw [← hpiece.visited, List.map_map]
    apply List.map_congr_left
    intro p hp
    simp [find?, Form.child?_map, Form.child?_eq_some_iff.2 hs]
  others := by
    intro p hp
    cases p with
    | nil => rfl
    | cons i p =>
      rw [mem_waysInto_iff] at hp
      simp only [find?, form_mk, Form.child?_map] at hp ⊢
      cases hx : z.child? i with
      | none => rfl
      | some x =>
        have hmem : x ∈ z.children := by
          rw [← Form.map_snd_slots]
          exact List.mem_map.2 ⟨_, Form.child?_eq_some_iff.1 hx, rfl⟩
        obtain ⟨piece, hpiece⟩ := h.exists_of_mem hmem
        apply hpiece.others
        intro hbelow
        exact hp ⟨x.1, by simp [hx], hbelow⟩

/-- A visit of a form that gives spans below its children gives them below the form. -/
theorem visits_form {form : Form Node} {g : Node → m Node} {parts : Node → List Node}
    {below : Node → List Way}
    (h : ∀ c ∈ form.children, Visits visit (parts c) (g c) (c.Respanned (below c))) :
    Visits visit (form.children.flatMap parts) (form.mapM g) fun spans form' =>
      form'.isHoisted = form.isHoisted ∧
      ∀ own, (mk form own).Respanned (waysInto form below) spans ⟨form', own⟩ := by
  obtain ⟨refill, hrefill, hout⟩ := form.visits_mapM g
  rw [hrefill]
  apply ((loop h).map refill).mono
  rintro spans _ - ⟨cs, hcs, rfl⟩
  obtain ⟨z, rfl, hz, rfl⟩ := hout cs hcs.length_eq
  rw [← hz]
  rw [Form.children_map] at hcs
  exact ⟨by simp, fun own => respanned_form hcs own⟩

theorem stamped_of_isHoisted {form : Form Node} {own s : Span} {h : Bool}
    (hform : form.isHoisted = h) : (Node.mk form own).stamped ⟨s, h⟩ = ⟨form, s⟩ := by
  rw [stamped, form_mk, ← hform, Form.withHoisted_isHoisted]

/-- A span for the node itself, before those below it. -/
theorem Respanned.root {ways : List Way} {spans : List Span} {form : Form Node} (s : Span)
    (hways : [] ∉ ways) (h : Respanned ⟨n.form, n.span⟩ ways spans ⟨form, n.span⟩) :
    n.Respanned ([] :: ways) (s :: spans) ⟨form, s⟩ := by
  have hfind (p : Way) (hp : p ≠ []) :
      (Node.mk form s).find? p = (Node.mk form n.span).find? p := by
    cases p with
    | nil => exact absurd rfl hp
    | cons i p => rfl
  obtain ⟨own, span⟩ := n
  refine ⟨?_, ?_, ?_⟩
  · have hunspanned := h.unspanned
    rw [unspanned_eq, unspanned_eq] at hunspanned ⊢
    exact hunspanned
  · rw [List.map_cons, List.map_cons, ← h.visited]
    congr 1
    apply List.map_congr_left
    intro p hp
    rw [hfind p fun heq => hways (heq ▸ hp)]
  · intro p hp
    rw [List.mem_cons, not_or] at hp
    rw [hfind p hp.1]
    exact h.others p hp.2

/-- The visit of a walk, where the visitor changes spans only. -/
theorem visits_amend (descend : Node → Bool) (visit : Node → m Span) (n : Node) :
    Visits visit (n.visited descend)
      (n.amend descend fun c => (⟨·, c.form.isHoisted⟩) <$> visit c)
      (n.Respanned (n.ways descend)) := by
  induction n using Node.induct with
  | h n ih =>
    rw [amend_eq, visited_eq, ways_eq]
    simp only [bind_map_left]
    by_cases hd : descend n = true
    · simp only [hd, if_true]
      apply ((one n).bind fun s => (visits_form ih).ret
        fun form => (mk form n.span).stamped ⟨s, n.form.isHoisted⟩).mono
      rintro _ _ - ⟨_, spans, s, rfl, -, -, rfl, form, ⟨hhoisted, hown⟩, rfl⟩
      rw [stamped_of_isHoisted hhoisted]
      exact (hown n.span).root s (by simp [waysInto])
    · simp only [hd]
      apply ((one n).bind fun s => (nothing n.form).ret
        fun form => (mk form n.span).stamped ⟨s, n.form.isHoisted⟩).mono
      rintro _ _ - ⟨_, spans, s, rfl, -, -, rfl, form, ⟨rfl, rfl⟩, rfl⟩
      rw [stamped_of_isHoisted rfl]
      exact Respanned.root s List.not_mem_nil ⟨rfl, rfl, fun _ _ => rfl⟩

/-- The visit of the direct children, where the visitor changes spans only. -/
theorem visits_children (visit : Node → m Span) (n : Node) :
    Visits visit n.children
      (do return ⟨← n.form.mapM fun c => (⟨c.form, ·⟩) <$> visit c, n.span⟩)
      (n.Respanned (n.form.slots.map fun s => [s.1])) := by
  have hone (c : Node) : Visits visit [c] ((Node.mk c.form ·) <$> visit c)
      (c.Respanned [[]]) := by
    apply ((one c).map (Node.mk c.form ·)).mono
    rintro _ _ - ⟨s, rfl, rfl⟩
    exact Respanned.root s List.not_mem_nil ⟨rfl, rfl, fun _ _ => rfl⟩
  have hways : waysInto n.form (fun _ => [[]]) = n.form.slots.map fun s => [s.1] :=
    List.map_eq_flatMap.symm
  have hform : Visits visit (n.form.children.flatMap fun c => [c])
      (n.form.mapM fun c => (Node.mk c.form ·) <$> visit c) _ := visits_form fun c _ => hone c
  rw [List.flatMap_singleton', hways] at hform
  apply (hform.ret fun form => Node.mk form n.span).mono
  rintro spans _ - ⟨form, ⟨-, hown⟩, rfl⟩
  cases n
  exact hown _

/-- A pass over nodes of a tree agrees with one that may change them. The first visits what stands
at the ends of some ways, which are in the order of the source; the second visits the same nodes in
the same order, each as it was, and, where its visitor only gives spans, leaves the tree with these
spans at the ends of these ways. -/
structure WalkedAlike (n : Node) (ways : List Way) (nodes : List Node)
    (amend : ∀ {m : Type → Type} [Monad m], (Node → m Span) → m Node) : Prop where
  found : ways.map n.find? = nodes.map some
  nodup : ways.Nodup
  ordered : ways.Pairwise n.Before
  amended {m : Type → Type} [Monad m] [LawfulMonad m] (visit : Node → m Span) :
    Visits visit nodes (amend visit) (n.Respanned ways)

theorem walkedAlike_tree (n : Node) (descend : Node → Bool) :
    n.WalkedAlike (n.ways descend) (n.visited descend)
      (fun visit => n.amend descend fun c => (⟨·, c.form.isHoisted⟩) <$> visit c) where
  found := map_find?_ways descend n
  nodup := nodup_of_pairwise (pairwise_ways descend n)
  ordered := pairwise_ways descend n
  amended visit := visits_amend descend visit n

theorem walkedAlike_children (n : Node) :
    n.WalkedAlike (n.form.slots.map fun s => [s.1]) n.children
      (fun visit => do return ⟨← n.form.mapM fun c => (⟨c.form, ·⟩) <$> visit c, n.span⟩) := by
  have hordered : (n.form.slots.map fun s => [s.1]).Pairwise n.Before := by
    rw [List.pairwise_map]
    apply n.form.pairwise_slots.imp
    intro s t hst
    exact .beside hst
  refine ⟨?_, nodup_of_pairwise hordered, hordered, fun visit => visits_children visit n⟩
  rw [children, ← Form.map_snd_slots, List.map_map, List.map_map]
  apply List.map_congr_left
  intro s hs
  simp [find?, Form.child?_eq_some_iff.2 hs]

theorem isSome_find?_of_prefix (h : (n.find? p).isSome = true) (hq : q <+: p) :
    (n.find? q).isSome = true := by
  induction q generalizing n p with
  | nil => rfl
  | cons i q ih =>
    obtain ⟨r, rfl⟩ := hq
    cases hc : n.form.child? i with
    | none => simp [find?, hc] at h
    | some c =>
      have hbelow : (c.find? (q ++ r)).isSome = true := by simpa [find?, hc] using h
      simpa [find?, hc] using ih hbelow (List.prefix_append q r)

/-- The walk and the walk with changes agree, and so do the passes over direct children. A walk
comes to the nodes above which none is skipped, and so to all of them if none is; and all that a
form holds stands at its places. -/
theorem walks_agree (n : Node) (descend : Node → Bool) :
    n.WalkedAlike (n.ways descend) (n.visited descend)
      (fun visit => n.amend descend fun c => (⟨·, c.form.isHoisted⟩) <$> visit c) ∧
    (∀ p, p ∈ n.ways descend ↔ (n.find? p).isSome = true ∧
      ∀ q, q <+: p → q ≠ p → (n.find? q).any descend = true) ∧
    (∀ p, p ∈ n.ways (fun _ => true) ↔ (n.find? p).isSome = true) ∧
    n.WalkedAlike (n.form.slots.map fun s => [s.1]) n.children
      (fun visit => do return ⟨← n.form.mapM fun c => (⟨c.form, ·⟩) <$> visit c, n.span⟩) ∧
    ∀ f g : Node → Node, n.form.map f = n.form.map g ↔
      ∀ i c, n.form.child? i = some c → f c = g c := by
  have hall (p : Way) : p ∈ n.ways (fun _ => true) ↔ (n.find? p).isSome = true := by
    rw [mem_ways_iff]
    constructor
    · intro h
      exact h.1
    · intro h
      refine ⟨h, ?_⟩
      intro q hq _
      simpa using isSome_find?_of_prefix h hq
  exact ⟨walkedAlike_tree n descend, fun p => mem_ways_iff, hall, walkedAlike_children n,
    fun f g => Form.map_eq_map_iff⟩

end Node

end ScriptMinifier
