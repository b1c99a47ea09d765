import Mathlib
import ScriptMinifier.Tree.Attach

namespace ScriptMinifier

variable {m : Type → Type} [Monad m] {α β γ δ ι : Type} {f : α → m β} {as as' : List α}

/-- A list of results is as long as what they are results of. -/
theorem bind_mapM_congr [LawfulMonad m] {g g' : List β → m γ}
    (h : ∀ bs, bs.length = as.length → g bs = g' bs) :
    as.mapM f >>= g = as.mapM f >>= g' := by
  induction as generalizing g g' with
  | nil => simp [h [] rfl]
  | cons a as ih =>
    simp only [List.mapM_cons, bind_assoc, pure_bind]
    congr 1
    funext b
    apply ih
    intro bs hbs
    apply h
    simp [hbs]

/-- `x` does `f` with each of `as`, in this order, and nothing else, and makes of the results
something that `out` relates to them. -/
def Visits (f : α → m β) (as : List α) (x : m γ) (out : List β → γ → Prop) : Prop :=
  ∃ build : List β → γ, x = build <$> as.mapM f ∧ ∀ bs, bs.length = as.length → out bs (build bs)

namespace Visits

variable {x : m γ} {y : γ → m δ} {out out' : List β → γ → Prop} {outs : γ → List β → δ → Prop}

theorem mono (h : Visits f as x out)
    (hout : ∀ bs c, bs.length = as.length → out bs c → out' bs c) : Visits f as x out' := by
  obtain ⟨build, hx, hbuild⟩ := h
  exact ⟨build, hx, fun bs hbs => hout bs _ hbs (hbuild bs hbs)⟩

variable [LawfulMonad m]

theorem nothing (c : γ) : Visits f [] (Pure.pure c) fun bs c' => bs = [] ∧ c' = c :=
  ⟨fun _ => c, by simp, fun bs hbs => ⟨List.length_eq_zero_iff.1 hbs, rfl⟩⟩

theorem one [Inhabited β] (a : α) : Visits f [a] (f a) fun bs b => bs = [b] := by
  refine ⟨List.head!, by simp, ?_⟩
  intro bs hbs
  obtain ⟨b, rfl⟩ := List.length_eq_one_iff.1 hbs
  rfl

/-- One computation after the other visits what both visit. -/
theorem bind (hx : Visits f as x out) (hy : ∀ c, Visits f as' (y c) (outs c)) :
    Visits f (as ++ as') (x >>= y) fun bs d => ∃ bs₁ bs₂ c, bs = bs₁ ++ bs₂ ∧
      bs₁.length = as.length ∧ bs₂.length = as'.length ∧ out bs₁ c ∧ outs c bs₂ d := by
  obtain ⟨build, rfl, hbuild⟩ := hx
  choose build' hy hbuild' using hy
  refine ⟨fun bs => build' (build (bs.take as.length)) (bs.drop as.length), ?_, ?_⟩
  · simp only [hy, List.mapM_append, map_eq_pure_bind, bind_assoc, pure_bind]
    apply bind_mapM_congr
    intro bs hbs
    simp [← hbs]
  · intro bs hbs
    rw [List.length_append] at hbs
    have hfirst : (bs.take as.length).length = as.length := by simp [hbs]
    have hsecond : (bs.drop as.length).length = as'.length := by simp [hbs]
    exact ⟨_, _, _, (List.take_append_drop ..).symm, hfirst, hsecond, hbuild _ hfirst,
      hbuild' _ _ hsecond⟩

theorem map (hx : Visits f as x out) (g : γ → δ) :
    Visits f as (g <$> x) fun bs d => ∃ c, out bs c ∧ d = g c := by
  obtain ⟨build, rfl, hbuild⟩ := hx
  refine ⟨fun bs => g (build bs), by simp, ?_⟩
  intro bs hbs
  exact ⟨build bs, hbuild bs hbs, rfl⟩

/-- What is made of the outcome in the end. -/
theorem ret (hx : Visits f as x out) (g : γ → δ) :
    Visits f as (x >>= fun c => Pure.pure (g c)) fun bs d => ∃ c, out bs c ∧ d = g c := by
  rw [bind_pure_comp]
  exact hx.map g

/-- Results in pieces, one piece for each of a list. -/
inductive Pieces (parts : ι → List α) (outs : ι → List β → γ → Prop) :
    List ι → List β → List γ → Prop where
  | nil : Pieces parts outs [] [] []
  | cons {i is bs bs' c cs} : bs.length = (parts i).length → outs i bs c →
    Pieces parts outs is bs' cs → Pieces parts outs (i :: is) (bs ++ bs') (c :: cs)

section

variable {parts : ι → List α} {outs : ι → List β → γ → Prop} {ζ : Type} {first : ζ → ι}
  {second : ζ → γ} {zs : List ζ} {bs : List β}

theorem Pieces.length_eq {is : List ι} {cs : List γ} (h : Pieces parts outs is bs cs) :
    cs.length = is.length := by
  induction h with
  | nil => rfl
  | cons hlength hout hrest ih => simp [ih]

theorem Pieces.exists_of_mem {z : ζ}
    (h : Pieces parts outs (zs.map first) bs (zs.map second)) (hz : z ∈ zs) :
    ∃ piece, outs (first z) piece (second z) := by
  induction zs generalizing bs with
  | nil => cases hz
  | cons y zs ih =>
    cases h with
    | cons hlength hout hrest =>
      rcases List.mem_cons.1 hz with rfl | hz
      · exact ⟨_, hout⟩
      · exact ih hrest hz

/-- What is made of the pieces one by one is made of all the results. -/
theorem Pieces.flatMap_eq {g : ζ → List δ} {k : β → δ}
    (h : Pieces parts outs (zs.map first) bs (zs.map second))
    (hg : ∀ z ∈ zs, ∀ piece, outs (first z) piece (second z) → g z = piece.map k) :
    zs.flatMap g = bs.map k := by
  induction zs generalizing bs with
  | nil =>
    cases h
    rfl
  | cons z zs ih =>
    cases h with
    | cons hlength hout hrest =>
      rw [List.flatMap_cons, List.map_append, hg z List.mem_cons_self _ hout,
        ih hrest fun y hy => hg y (List.mem_cons_of_mem z hy)]

end

/-- A loop visits what its rounds visit. -/
theorem loop {xs : ι → m γ} {parts : ι → List α} {outs : ι → List β → γ → Prop} {is : List ι}
    (h : ∀ i ∈ is, Visits f (parts i) (xs i) (outs i)) :
    Visits f (is.flatMap parts) (is.mapM xs) (Pieces parts outs is) := by
  induction is with
  | nil =>
    rw [List.flatMap_nil, List.mapM_nil]
    apply (nothing []).mono
    rintro bs cs - ⟨rfl, rfl⟩
    exact .nil
  | cons i is ih =>
    have hfirst := h i List.mem_cons_self
    have hrest := ih fun j hj => h j (List.mem_cons_of_mem i hj)
    rw [List.flatMap_cons, List.mapM_cons]
    apply (hfirst.bind fun c => hrest.ret (c :: ·)).mono
    rintro bs cs - ⟨bs₁, bs₂, c, rfl, h₁, -, hout, cs, hcs, rfl⟩
    exact .cons h₁ hout hcs

/-- `c'` is `c` with the results `bs` in it: there is a `z` that holds each element of `c` together
with the result in its place. -/
def Paired {ζ γ' : Type} (first : ζ → γ) (second : ζ → γ') (pairs : ζ → List (α × β)) (c : γ)
    (bs : List β) (c' : γ') : Prop :=
  ∃ z, first z = c ∧ second z = c' ∧ (pairs z).map Prod.snd = bs

theorem Pieces.paired {ζ : Type} {parts : ι → List α} {first : ζ → ι} {second : ζ → γ}
    {pairs : ζ → List (α × β)} {is : List ι} {bs : List β} {cs : List γ}
    (h : Pieces parts (Paired first second pairs) is bs cs) :
    Paired (List.map first) (List.map second) (List.flatMap pairs) is bs cs := by
  induction h with
  | nil => exact ⟨[], rfl, rfl, rfl⟩
  | cons hlength hout hrest ih =>
    obtain ⟨z, rfl, rfl, rfl⟩ := hout
    obtain ⟨zs, rfl, rfl, rfl⟩ := ih
    exact ⟨z :: zs, rfl, rfl, by simp⟩

theorem list (as : List α) : Visits f as (as.mapM f)
    (Paired (List.map Prod.fst) (List.map Prod.snd) id as) := by
  refine ⟨id, by simp, ?_⟩
  intro bs hbs
  have hsnd : (as.zip bs).map Prod.snd = bs := List.map_snd_zip hbs.le
  exact ⟨as.zip bs, List.map_fst_zip hbs.ge, hsnd, hsnd⟩

variable [Inhabited β]

theorem option (o : Option α) : Visits f o.toList (o.mapM f)
    (Paired (Option.map Prod.fst) (Option.map Prod.snd) Option.toList o) := by
  cases o with
  | none =>
    apply (nothing none).mono
    rintro _ _ - ⟨rfl, rfl⟩
    exact ⟨none, rfl, rfl, rfl⟩
  | some a =>
    rw [Option.mapM_some]
    apply ((one a).map some).mono
    rintro _ _ - ⟨a', rfl, rfl⟩
    exact ⟨some (a, a'), rfl, rfl, rfl⟩

theorem bindings (bindings : List (Binding α)) :
    Visits f (bindings.filterMap (·.value)) (bindings.mapM (·.mapM f))
      (Paired (List.map (Binding.map Prod.fst)) (List.map (Binding.map Prod.snd))
        (List.filterMap Binding.value) bindings) := by
  have hone (b : Binding α) : Visits f b.value.toList (b.mapM f)
      (Paired (Binding.map Prod.fst) (Binding.map Prod.snd) (fun z => z.value.toList) b) := by
    apply ((option b.value).ret fun v => (⟨b.name, v, b.span⟩ : Binding β)).mono
    rintro _ _ - ⟨_, ⟨z, hz, rfl, rfl⟩, rfl⟩
    exact ⟨⟨b.name, z, b.span⟩, by simp [Binding.map, hz], rfl, rfl⟩
  rw [List.filterMap_eq_flatMap_toList]
  apply (loop fun b _ => hone b).mono
  intro _ _ _ h
  obtain ⟨z, hz, hz', hbs⟩ := h.paired
  exact ⟨z, hz, hz', by rw [List.filterMap_eq_flatMap_toList, hbs]⟩

theorem properties (ps : List (Property α)) :
    Visits f (ps.map (·.value)) (ps.mapM (·.mapM f))
      (Paired (List.map (Property.map Prod.fst)) (List.map (Property.map Prod.snd))
        (List.map Property.value) ps) := by
  have hone (p : Property α) : Visits f [p.value] (p.mapM f)
      (Paired (Property.map Prod.fst) (Property.map Prod.snd) (fun z => [z.value]) p) := by
    apply ((one p.value).ret fun v => (⟨p.kind, p.key, v, p.span⟩ : Property β)).mono
    rintro _ _ - ⟨v, rfl, rfl⟩
    exact ⟨⟨p.kind, p.key, (p.value, v), p.span⟩, rfl, rfl, rfl⟩
  rw [List.map_eq_flatMap]
  apply (loop fun p _ => hone p).mono
  intro _ _ _ h
  obtain ⟨z, hz, hz', hbs⟩ := h.paired
  rw [← List.map_eq_flatMap] at hbs
  exact ⟨z, hz, hz', hbs⟩

end Visits

namespace Form

open Visits

/-- The second form is the first with other children in their places. -/
abbrev Refilled : Form α → List β → Form β → Prop :=
  Paired (map Prod.fst) (map Prod.snd) children

variable [LawfulMonad m]

/-- A form with a list of children. -/
theorem visits_list (wrap : (γ : Type) → List γ → Form γ)
    (hmap : ∀ (γ δ : Type) (g : γ → δ) as, (wrap γ as).map g = wrap δ (as.map g))
    (hchildren : ∀ (γ : Type) as, (wrap γ as).children = as) (as : List α) :
    Visits f (wrap α as).children (do return wrap β (← as.mapM f)) (wrap α as).Refilled := by
  rw [hchildren]
  apply ((list as).ret (wrap β)).mono
  rintro _ _ - ⟨_, ⟨z, rfl, rfl, rfl⟩, rfl⟩
  refine ⟨wrap (α × β) z, hmap _ _ _ _, hmap _ _ _ _, ?_⟩
  rw [hchildren]
  rfl

variable [Inhabited β]

theorem visits_leaf {form : Form α} (hchildren : form.children = [])
    (hmap : form.mapM f = pure (form.map fun _ => default)) :
    Visits f form.children (form.mapM f) form.Refilled := by
  rw [hchildren, hmap]
  apply (nothing _).mono
  rintro _ _ - ⟨rfl, rfl⟩
  refine ⟨form.map (·, default), ?_, ?_, ?_⟩
  · rw [← map_map]
    exact map_id form
  · rw [← map_map]
  · rw [children_map, hchildren]
    rfl

/-- A form with one child. -/
theorem visits_one (wrap : (γ : Type) → γ → Form γ)
    (hmap : ∀ (γ δ : Type) (g : γ → δ) a, (wrap γ a).map g = wrap δ (g a))
    (hchildren : ∀ (γ : Type) a, (wrap γ a).children = [a]) (a : α) :
    Visits f (wrap α a).children (do return wrap β (← f a)) (wrap α a).Refilled := by
  rw [hchildren]
  apply ((one a).ret (wrap β)).mono
  rintro _ _ - ⟨a', rfl, rfl⟩
  refine ⟨wrap (α × β) (a, a'), hmap _ _ _ _, hmap _ _ _ _, ?_⟩
  rw [hchildren]
  rfl

/-- A form with two children. -/
theorem visits_two (wrap : (γ : Type) → γ → γ → Form γ)
    (hmap : ∀ (γ δ : Type) (g : γ → δ) a b, (wrap γ a b).map g = wrap δ (g a) (g b))
    (hchildren : ∀ (γ : Type) a b, (wrap γ a b).children = [a, b]) (a b : α) :
    Visits f (wrap α a b).children (do let a' ← f a; let b' ← f b; return wrap β a' b')
      (wrap α a b).Refilled := by
  rw [hchildren]
  apply ((one a).bind fun a' => (one b).ret (wrap β a')).mono
  rintro _ _ - ⟨_, _, a', rfl, -, -, rfl, b', rfl, rfl⟩
  refine ⟨wrap (α × β) (a, a') (b, b'), hmap _ _ _ _ _, hmap _ _ _ _ _, ?_⟩
  rw [hchildren]
  rfl

/-- A form with three children. -/
theorem visits_three (wrap : (γ : Type) → γ → γ → γ → Form γ)
    (hmap : ∀ (γ δ : Type) (g : γ → δ) a b c, (wrap γ a b c).map g = wrap δ (g a) (g b) (g c))
    (hchildren : ∀ (γ : Type) a b c, (wrap γ a b c).children = [a, b, c]) (a b c : α) :
    Visits f (wrap α a b c).children
      (do let a' ← f a; let b' ← f b; let c' ← f c; return wrap β a' b' c')
      (wrap α a b c).Refilled := by
  rw [hchildren]
  apply ((one a).bind fun a' => (one b).bind fun b' => (one c).ret (wrap β a' b')).mono
  rintro _ _ - ⟨_, _, a', rfl, -, -, rfl, _, _, b', rfl, -, -, rfl, c', rfl, rfl⟩
  refine ⟨wrap (α × β) (a, a') (b, b') (c, c'), hmap _ _ _ _ _ _, hmap _ _ _ _ _ _, ?_⟩
  rw [hchildren]
  rfl

/-- A form with one child before a list of them. -/
theorem visits_headed (wrap : (γ : Type) → γ → List γ → Form γ)
    (hmap : ∀ (γ δ : Type) (g : γ → δ) a as, (wrap γ a as).map g = wrap δ (g a) (as.map g))
    (hchildren : ∀ (γ : Type) a as, (wrap γ a as).children = a :: as) (a : α) (as : List α) :
    Visits f (wrap α a as).children (do let a' ← f a; return wrap β a' (← as.mapM f))
      (wrap α a as).Refilled := by
  rw [hchildren]
  apply ((one a).bind fun a' => (list as).ret (wrap β a')).mono
  rintro _ _ - ⟨_, _, a', rfl, -, -, rfl, _, ⟨z, rfl, rfl, rfl⟩, rfl⟩
  refine ⟨wrap (α × β) (a, a') z, hmap _ _ _ _ _, hmap _ _ _ _ _, ?_⟩
  rw [hchildren]
  rfl

/-- A visit of a form comes to its children as they are listed, and changes nothing else. -/
theorem visits_mapM (form : Form α) (f : α → m β) :
    Visits f form.children (form.mapM f) form.Refilled := by
  cases form with
  | empty | debugger | jump | string | number | boolean | null | undefined | identifier | this =>
    exact visits_leaf rfl rfl
  | expression e => exact visits_one (fun _ => expression) (fun _ _ _ _ => rfl) (fun _ _ => rfl) e
  | labeled l e => exact visits_one (fun _ => labeled l) (fun _ _ _ _ => rfl) (fun _ _ => rfl) e
  | unary op e => exact visits_one (fun _ => unary op) (fun _ _ _ _ => rfl) (fun _ _ => rfl) e
  | update op e => exact visits_one (fun _ => update op) (fun _ _ _ _ => rfl) (fun _ _ => rfl) e
  | member e s => exact visits_one (fun _ e => member e s) (fun _ _ _ _ => rfl) (fun _ _ => rfl) e
  | loop k c b =>
    cases k with
    | whileDo =>
      exact visits_two (fun _ => loop .whileDo) (fun _ _ _ _ _ => rfl) (fun _ _ _ => rfl) c b
    | doWhile =>
      exact visits_two (fun _ b c => loop .doWhile c b) (fun _ _ _ _ _ => rfl)
        (fun _ _ _ => rfl) b c
  | with_ e b => exact visits_two (fun _ => with_) (fun _ _ _ _ _ => rfl) (fun _ _ _ => rfl) e b
  | binary op l r =>
    exact visits_two (fun _ => binary op) (fun _ _ _ _ _ => rfl) (fun _ _ _ => rfl) l r
  | assign op l r =>
    exact visits_two (fun _ => assign op) (fun _ _ _ _ _ => rfl) (fun _ _ _ => rfl) l r
  | sequence a b =>
    exact visits_two (fun _ => sequence) (fun _ _ _ _ _ => rfl) (fun _ _ _ => rfl) a b
  | index e p => exact visits_two (fun _ => index) (fun _ _ _ _ _ => rfl) (fun _ _ _ => rfl) e p
  | forIn i e b =>
    exact visits_three (fun _ => forIn) (fun _ _ _ _ _ _ => rfl) (fun _ _ _ _ => rfl) i e b
  | conditional c a b =>
    exact visits_three (fun _ => conditional) (fun _ _ _ _ _ _ => rfl) (fun _ _ _ _ => rfl) c a b
  | block es => exact visits_list (fun _ => block) (fun _ _ _ _ => rfl) (fun _ _ => rfl) es
  | catch_ s es => exact visits_list (fun _ => catch_ s) (fun _ _ _ _ => rfl) (fun _ _ => rfl) es
  | finally_ es => exact visits_list (fun _ => finally_) (fun _ _ _ _ => rfl) (fun _ _ => rfl) es
  | program es => exact visits_list (fun _ => program) (fun _ _ _ _ => rfl) (fun _ _ => rfl) es
  | array es => exact visits_list (fun _ => array) (fun _ _ _ _ => rfl) (fun _ _ => rfl) es
  | declaration l =>
    obtain ⟨name, params, es, arguments, hoisted⟩ := l
    exact visits_list (fun _ es => declaration ⟨name, params, es, arguments, hoisted⟩)
      (fun _ _ _ _ => rfl) (fun _ _ => rfl) es
  | function l =>
    obtain ⟨name, params, es, arguments, hoisted⟩ := l
    exact visits_list (fun _ es => function ⟨name, params, es, arguments, hoisted⟩)
      (fun _ _ _ _ => rfl) (fun _ _ => rfl) es
  | switch e es =>
    exact visits_headed (fun _ => switch) (fun _ _ _ _ _ => rfl) (fun _ _ _ => rfl) e es
  | call e es => exact visits_headed (fun _ => call) (fun _ _ _ _ _ => rfl) (fun _ _ _ => rfl) e es
  | construct e es =>
    exact visits_headed (fun _ => construct) (fun _ _ _ _ _ => rfl) (fun _ _ _ => rfl) e es
  | exit k v =>
    apply ((option v).ret (exit k)).mono
    rintro _ _ - ⟨_, ⟨z, rfl, rfl, rfl⟩, rfl⟩
    exact ⟨exit k z, rfl, rfl, rfl⟩
  | branch c b v =>
    apply ((one c).bind fun c' => (one b).bind fun b' => (option v).ret (branch c' b')).mono
    rintro _ _ - ⟨_, _, c', rfl, -, -, rfl, _, _, b', rfl, -, -, rfl, _, ⟨z, rfl, rfl, rfl⟩, rfl⟩
    exact ⟨branch (c, c') (b, b') z, rfl, rfl, rfl⟩
  | case t es =>
    apply ((option t).bind fun t' => (list es).ret (case t')).mono
    rintro _ _ - ⟨_, _, _, rfl, -, -, ⟨t, rfl, rfl, rfl⟩, _, ⟨z, rfl, rfl, rfl⟩, rfl⟩
    exact ⟨case t z, rfl, rfl, List.map_append⟩
  | forLoop i c s b =>
    rw [children, List.append_assoc, List.append_assoc]
    apply ((option i).bind fun i' => (option c).bind fun c' => (option s).bind fun s' =>
      (one b).ret (forLoop i' c' s')).mono
    rintro _ _ - ⟨_, _, _, rfl, -, -, ⟨i, rfl, rfl, rfl⟩, _, _, _, rfl, -, -, ⟨c, rfl, rfl, rfl⟩,
      _, _, _, rfl, -, -, ⟨s, rfl, rfl, rfl⟩, b', rfl, rfl⟩
    exact ⟨forLoop i c s (b, b'), rfl, rfl, by simp [children]⟩
  | try_ es h g =>
    rw [children, List.append_assoc]
    apply ((list es).bind fun es' => (option h).bind fun h' => (option g).ret (try_ es' h')).mono
    rintro _ _ - ⟨_, _, _, rfl, -, -, ⟨z, rfl, rfl, rfl⟩, _, _, _, rfl, -, -, ⟨h, rfl, rfl, rfl⟩,
      _, ⟨g, rfl, rfl, rfl⟩, rfl⟩
    exact ⟨try_ z h g, rfl, rfl, by simp [children]⟩
  | definitions k bs hoisted =>
    apply ((Visits.bindings bs).ret fun bs => definitions k bs hoisted).mono
    rintro _ _ - ⟨_, ⟨z, rfl, rfl, rfl⟩, rfl⟩
    exact ⟨definitions k z hoisted, rfl, rfl, rfl⟩
  | object ps =>
    apply ((Visits.properties ps).ret object).mono
    rintro _ _ - ⟨_, ⟨z, rfl, rfl, rfl⟩, rfl⟩
    exact ⟨object z, rfl, rfl, rfl⟩

end Form

end ScriptMinifier
