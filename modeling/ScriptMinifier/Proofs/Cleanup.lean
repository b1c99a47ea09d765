import ScriptMinifier.Proofs.Aftermath
import ScriptMinifier.Proofs.Throughout
import ScriptMinifier.Tree.Build

namespace ScriptMinifier

open Context (Reroled)
open Pass (Leaves)

theorem eq_map_of_forall₂ {α β : Type} {f : α → β} {as : List α} {bs : List β}
    (h : List.Forall₂ (fun a b => b = f a) as bs) : bs = as.map f := by
  induction h with
  | nil => rfl
  | cons h _ ih =>
    rw [h, ih]
    rfl

namespace Form

variable {α β : Type}

/-- Changes the statement list that a form holds, where it holds one. -/
def mapBody (f : List α → List α) : Form α → Form α
  | block body => block (f body)
  | case test body => case test (f body)
  | try_ body handler finalizer => try_ (f body) handler finalizer
  | catch_ param body => catch_ param (f body)
  | finally_ body => finally_ (f body)
  | declaration l => declaration { l with body := f l.body }
  | program body => program (f body)
  | function l => function { l with body := f l.body }
  | form => form

@[simp] theorem body?_mapBody (f : List α → List α) (form : Form α) :
    (form.mapBody f).body? = form.body?.map f := by
  cases form <;> rfl

@[simp] theorem isMarked_mapBody (f : List α → List α) (form : Form α) :
    (form.mapBody f).isMarked = form.isMarked := by
  cases form <;> rfl

@[simp] theorem isMarked_map (f : α → β) (form : Form α) :
    (form.map f).isMarked = form.isMarked := by
  cases form <;> rfl

@[simp] theorem body?_map (f : α → β) (form : Form α) :
    (form.map f).body? = form.body?.map (List.map f) := by
  cases form <;> rfl

theorem mapBody_eq_self {f : List α → List α} {form : Form α}
    (h : ∀ body ∈ form.body?, f body = body) : form.mapBody f = form := by
  cases form <;> first | rfl | simp [mapBody, h _ rfl]

theorem mem_children_mapBody {f : List α → List α} {form : Form α} {c : α}
    (h : c ∈ (form.mapBody f).children) :
    c ∈ form.children ∨ ∃ body ∈ form.body?, c ∈ f body := by
  cases form with
  | block | catch_ | finally_ | program | declaration | function => exact .inr ⟨_, rfl, h⟩
  | case test body =>
    rcases List.mem_append.1 h with h | h
    · exact .inl (List.mem_append_left _ h)
    · exact .inr ⟨body, rfl, h⟩
  | try_ body handler finalizer =>
    rcases List.mem_append.1 h with h | h
    · rcases List.mem_append.1 h with h | h
      · exact .inr ⟨body, rfl, h⟩
      · exact .inl (List.mem_append_left _ (List.mem_append_right _ h))
    · exact .inl (List.mem_append_right _ h)
  | _ => exact .inl h

/-- Where parts correspond to their images and lists to changed lists of images, so does the
form. -/
theorem Lift.eq_mapBody {f : α → β} {g : List β → List β} {form : Form α} {form' : Form β}
    (h : form.Lift (fun _ a b => b = f a) (fun as bs => bs = g (as.map f)) form') :
    form' = (form.map f).mapBody g := by
  have hv {v : Option α} {v' : Option β} (h : Option.Rel (fun a b => b = f a) v v') :
      v' = v.map f := by
    cases h with
    | none => rfl
    | some h => rw [h]; rfl
  cases h with
  | expression h | labeled h | unary h | update h | member h | block h | catch_ h | finally_ h
  | program h | declaration h | function h =>
    subst h
    rfl
  | loop h₁ h₂ | with_ h₁ h₂ | binary h₁ h₂ | sequence h₁ h₂ | index h₁ h₂ | assign h₁ h₂ =>
    subst h₁ h₂
    rfl
  | forIn h₁ h₂ h₃ | conditional h₁ h₂ h₃ =>
    subst h₁ h₂ h₃
    rfl
  | exit h =>
    rw [hv h]
    rfl
  | array h =>
    rw [eq_map_of_forall₂ h]
    rfl
  | branch h₁ h₂ h₃ =>
    rw [h₁, h₂, hv h₃]
    rfl
  | forLoop h₁ h₂ h₃ h₄ =>
    rw [hv h₁, hv h₂, hv h₃, h₄]
    rfl
  | switch h₁ h₂ | call h₁ h₂ | construct h₁ h₂ =>
    rw [h₁, eq_map_of_forall₂ h₂]
    rfl
  | case h₁ h₂ =>
    rw [hv h₁, h₂]
    rfl
  | try_ h₁ h₂ h₃ =>
    rw [h₁, hv h₂, hv h₃]
    rfl
  | definitions h =>
    have himage {b : Binding α} {b' : Binding β} (hb : Binding.Lift (fun a b => b = f a) b b') :
        b' = b.map f := by
      cases hb with
      | mk value hvalue =>
        rw [hv hvalue]
        rfl
    rw [eq_map_of_forall₂ (h.imp fun _ _ => himage)]
    rfl
  | object h =>
    have himage {p : Property α} {p' : Property β} (hp : Property.Lift (fun a b => b = f a) p p') :
        p' = p.map f := by
      cases hp with
      | mk value hvalue =>
        rw [hvalue]
        rfl
    rw [eq_map_of_forall₂ (h.imp fun _ _ => himage)]
    rfl
  | _ => rfl

/-- What is left of a form whose parts have been cleaned up. -/
def settled (form : Form Node) (span : Span) : Node :=
  match form with
  | labeled label body => if label.references = 0 then body else ⟨labeled label body, span⟩
  | block [n] => n
  | forLoop init condition step body =>
    ⟨forLoop (init.filter (!·.isEmpty)) condition step body, span⟩
  | form => ⟨form, span⟩

end Form

namespace Node

/-- What a statement puts into the list that holds it. -/
def members : Node → List Node
  | ⟨.block body, _⟩ => body
  | ⟨.empty, _⟩ => []
  | n => [n]

/-- The tree with its structure tidied. -/
def cleaned (n : Node) : Node :=
  ((n.form.attach.map fun c => cleaned c.1).mapBody (·.flatMap members)).settled n.span
termination_by sizeOf n
decreasing_by exact sizeOf_lt_of_mem c.2

theorem cleaned_eq (n : Node) :
    n.cleaned = ((n.form.map cleaned).mapBody (·.flatMap members)).settled n.span := by
  have h := Form.map_map cleaned Subtype.val n.form.attach
  rw [Form.attach_map_val] at h
  rw [cleaned, h]

end Node

theorem Statements.flatten_eq (ns : List Node) : flatten ns = ns.flatMap Node.members := by
  induction ns with
  | nil => rfl
  | cons n ns ih =>
    obtain ⟨form, span⟩ := n
    cases form <;> simp [flatten, Node.members, ih]

namespace Hoist

/-- Where nothing is to be hoisted, nothing is marked. -/
theorem mark_idle (n : Node) : (⟨false, false⟩ : Hoist).mark n = n := by
  induction n using Node.induct with
  | h n ih =>
    obtain ⟨form, span⟩ := n
    have hmap : form.map (⟨false, false⟩ : Hoist).mark = form :=
      Form.map_eq_self ih
    have hhoists : (⟨false, false⟩ : Hoist).hoists ⟨form, span⟩ = false := by
      cases form with
      | definitions kind => cases kind <;> rfl
      | _ => rfl
    rw [mark_mk, hmap, ite_self, hhoists, Bool.or_false, Form.withHoisted_isHoisted]

theorem surface_idle (params : Option (List String)) (span : Span) (body : List Node) :
    (⟨false, false⟩ : Hoist).surface params span body = (body, params) := by
  have hbody : body.map (⟨false, false⟩ : Hoist).mark = body :=
    (List.map_congr_left fun n _ => mark_idle n).trans (List.map_id body)
  cases params <;> simp [surface, varsIn, functionsIn, declaration, extend, hbody]

theorem surfaceForm_idle (span : Span) (form : Form Node) :
    (⟨false, false⟩ : Hoist).surfaceForm span form = form := by
  have hlambda (l : Lambda Node) : (⟨false, false⟩ : Hoist).surfaceLambda span l = l := by
    obtain ⟨name, params, body, usesArguments, hoisted⟩ := l
    cases usesArguments <;> simp [surfaceLambda, surface_idle]
  cases form <;> simp [surfaceForm, surface_idle, hlambda]

end Hoist

namespace Rule

/-- With all features off but warnings the rules leave expressions, branches and loops alone. -/
theorem simplify_minimal (form : Form Node) (span : Span) :
    simplify .minimal form span = pure (form.settled span) := by
  cases form with
  | block body => obtain _ | ⟨n, _ | ⟨_, _⟩⟩ := body <;> rfl
  | loop kind c body => cases kind <;> rfl
  | binary op l r => cases op <;> rfl
  | index subject property =>
    obtain ⟨form, s⟩ := property
    cases form <;> rfl
  | _ => rfl

end Rule

/-- No declaration of the tree is marked as hoisted. -/
def Node.Unmarked (n : Node) : Prop :=
  n.Throughout (fun _ => true) fun form => form.isMarked = false

theorem Node.unmarked_iff {form : Form Node} {span : Span} : (⟨form, span⟩ : Node).Unmarked ↔
    form.isMarked = false ∧ ∀ c ∈ form.children, c.Unmarked := by
  unfold Unmarked
  rw [throughout_iff]
  exact ⟨fun h => ⟨h.1, h.2 rfl⟩, fun h => ⟨h.1, fun _ => h.2⟩⟩

theorem Statements.leaves_tidy_minimal {c : Context} {step : Node → Pass Node} {ns : List Node}
    (h : ∀ n ∈ ns, Leaves (Reroled c) (fun _ => False) (Pass.inRole .other (step n))
      (· = n.cleaned)) :
    Leaves (Reroled c) (fun _ => False) (tidy .minimal step ns)
      (· = (ns.map Node.cleaned).flatMap Node.members) := by
  apply (Leaves.compositional.mapM_list h).bind
  intro ms hms
  rw [← eq_map_of_forall₂ hms, ← flatten_eq]
  exact Leaves.pure rfl

/-- With all features off but warnings the pass cleans up, in every context and without a fault or a
warning. -/
theorem leaves_reduce_minimal {n : Node} (hn : n.Unmarked) (c : Context) :
    Leaves (· = c) (fun _ => False) (n.reduce .minimal) (· = n.cleaned) := by
  induction n using Node.induct generalizing c with
  | h n ih =>
    obtain ⟨form, span⟩ := n
    obtain ⟨hform, hchildren⟩ := Node.unmarked_iff.1 hn
    have hpart (c : Context) (k : Category) (a : Node) (ha : (k, a) ∈ form.parts) :
        Leaves (Reroled c) (fun _ => False) (Pass.inRole k.role (a.reduce .minimal))
          (· = a.cleaned) := by
      have hchild := Form.mem_children_of_parts ha
      exact .inRole (ih a hchild (hchildren a hchild) _)
    have htraverse (c : Context) : Leaves (Reroled c) (fun _ => False)
        (form.traverse (fun role a => Pass.inRole role (a.reduce .minimal))
          (Statements.tidy .minimal (Node.reduce .minimal)))
        (· = (form.map Node.cleaned).mapBody (·.flatMap Node.members)) := by
      refine Leaves.compositional.mono (Leaves.compositional.traverse (hpart c) fun body hb => ?_)
        fun _ => Form.Lift.eq_mapBody
      exact Statements.leaves_tidy_minimal fun a ha =>
        hpart c .statement a (Form.mem_parts_of_body? hb ha)
    have hsurface : Options.minimal.hoist.surfaceForm span form = form := Hoist.surfaceForm_idle ..
    rw [Node.reduce_unmarked hform, hsurface]
    apply Leaves.within
    apply (htraverse _).bind
    rintro _ rfl
    rw [Rule.simplify_minimal]
    exact .pure (Node.cleaned_eq ⟨form, span⟩).symm

/-- At the form there is nothing to tidy: its statement list holds neither blocks nor empty
statements, and the form itself stays. -/
structure Form.Neat (form : Form Node) : Prop where
  flat : ∀ body ∈ form.body?, ∀ n ∈ body, n.members = [n]
  settled : ∀ span, form.settled span = ⟨form, span⟩

/-- A form either gives way to a part of it or stays, with the same statement list, for good. -/
theorem Form.settled_cases (form : Form Node) (span : Span) :
    (∃ n ∈ form.children, form.settled span = n) ∨
    ∃ form', form.settled span = ⟨form', span⟩ ∧ form'.isMarked = form.isMarked ∧
      form'.body? = form.body? ∧ (∀ c ∈ form'.children, c ∈ form.children) ∧
      ∀ s, form'.settled s = ⟨form', s⟩ := by
  cases form with
  | labeled label body =>
    by_cases hl : label.references = 0
    · exact .inl ⟨body, List.mem_cons_self, if_pos hl⟩
    · exact .inr ⟨_, if_neg hl, rfl, rfl, fun _ h => h, fun _ => if_neg hl⟩
  | block body =>
    obtain _ | ⟨n, _ | ⟨_, _⟩⟩ := body
    · exact .inr ⟨_, rfl, rfl, rfl, fun _ h => h, fun _ => rfl⟩
    · exact .inl ⟨n, List.mem_cons_self, rfl⟩
    · exact .inr ⟨_, rfl, rfl, rfl, fun _ h => h, fun _ => rfl⟩
  | forLoop init condition step body =>
    refine .inr ⟨_, rfl, rfl, rfl, fun c hc => ?_, fun s => ?_⟩
    · have hinit (h : c ∈ (init.filter (!·.isEmpty)).toList) : c ∈ init.toList :=
        Option.mem_toList.2 (Option.mem_filter_iff.1 (Option.mem_toList.1 h)).1
      simp only [Form.children, List.mem_append] at hc ⊢
      exact hc.imp_left (Or.imp_left (Or.imp_left hinit))
    · simp [Form.settled]
  | _ => exact .inr ⟨_, rfl, rfl, rfl, fun _ h => h, fun _ => rfl⟩

namespace Node

variable {n : Node}

/-- Nothing is left to tidy in the tree. -/
def Neat (n : Node) : Prop := n.Throughout (fun _ => true) Form.Neat

theorem neat_iff {form : Form Node} {span : Span} : (⟨form, span⟩ : Node).Neat ↔
    form.Neat ∧ ∀ c ∈ form.children, c.Neat := by
  unfold Neat
  rw [throughout_iff]
  exact ⟨fun h => ⟨h.1, h.2 rfl⟩, fun h => ⟨h.1, fun _ => h.2⟩⟩

/-- What a node puts into a list is the node or part of it. -/
theorem mem_members {m : Node} (hm : m ∈ n.members) : m = n ∨ m ∈ n.children := by
  obtain ⟨form, span⟩ := n
  cases form with
  | block body => exact .inr hm
  | empty => cases hm
  | _ => exact .inl (List.mem_singleton.1 hm)

/-- What a neat node puts into a list stays there: it is neither a block nor empty. -/
theorem Neat.members_eq (hn : n.Neat) {m : Node} (hm : m ∈ n.members) : m.members = [m] := by
  obtain ⟨form, span⟩ := n
  cases form with
  | block body => exact (neat_iff.1 hn).1.flat body rfl m hm
  | empty => cases hm
  | _ =>
    obtain rfl := List.mem_singleton.1 hm
    rfl

/-- A neat tree stays as it is. -/
theorem cleaned_of_neat (hn : n.Neat) : n.cleaned = n := by
  induction n using Node.induct with
  | h n ih =>
    obtain ⟨form, span⟩ := n
    obtain ⟨hform, hchildren⟩ := neat_iff.1 hn
    have hmap : form.map cleaned = form :=
      Form.map_eq_self fun c hc => ih c hc (hchildren c hc)
    have hbody : form.mapBody (·.flatMap members) = form := by
      refine Form.mapBody_eq_self fun body hb => ?_
      rw [List.flatMap_congr fun m hm => hform.flat body hb m hm]
      exact List.flatMap_singleton' body
    rw [cleaned_eq, form_mk, hmap, hbody, hform.settled, span_mk]

/-- A property of a tree and its parts that cleaned-up parts have is one of all that lies below the
tidied form. -/
theorem forall_children_cleaned {P : Node → Prop} {form : Form Node}
    (hP : ∀ n, P n → ∀ c ∈ n.children, P c) (h : ∀ c ∈ form.children, P c.cleaned) :
    ∀ c ∈ ((form.map cleaned).mapBody (·.flatMap members)).children, P c := by
  have hmap : ∀ c ∈ (form.map cleaned).children, P c := by
    rw [Form.children_map]
    exact List.forall_mem_map.2 h
  intro c hc
  rcases Form.mem_children_mapBody hc with hc | ⟨body, hb, hc⟩
  · exact hmap c hc
  · obtain ⟨m, hm, hc⟩ := List.mem_flatMap.1 hc
    have hpm : P m := hmap m (Form.mem_children_of_parts (Form.mem_parts_of_body? hb hm))
    rcases mem_members hc with rfl | hc
    · exact hpm
    · exact hP m hpm c hc

/-- What has been cleaned up is neat. -/
theorem neat_cleaned (n : Node) : n.cleaned.Neat := by
  induction n using Node.induct with
  | h n ih =>
    obtain ⟨form, span⟩ := n
    have hparts := forall_children_cleaned (P := Neat) (fun ⟨_, _⟩ h => (neat_iff.1 h).2) ih
    have hflat : ∀ body ∈ ((form.map cleaned).mapBody (·.flatMap members)).body?,
        ∀ m ∈ body, m.members = [m] := by
      intro body hb m hm
      rw [Form.body?_mapBody, Form.body?_map, Option.map_map] at hb
      obtain ⟨ns, hns, rfl⟩ := Option.map_eq_some_iff.1 hb
      obtain ⟨_, himage, hm⟩ := List.mem_flatMap.1 hm
      obtain ⟨c, hc, rfl⟩ := List.mem_map.1 himage
      exact (ih c (Form.mem_children_of_parts (Form.mem_parts_of_body? hns hc))).members_eq hm
    rw [cleaned_eq]
    rcases Form.settled_cases ((form.map cleaned).mapBody (·.flatMap members)) span with
      ⟨c, hc, h⟩ | ⟨form', h, -, hbody, hsub, hstays⟩
    · rw [form_mk, span_mk, h]
      exact hparts c hc
    · rw [form_mk, span_mk, h, neat_iff]
      exact ⟨⟨hbody ▸ hflat, hstays⟩, fun c hc => hparts c (hsub c hc)⟩

/-- To clean up marks nothing. -/
theorem Unmarked.cleaned (hn : n.Unmarked) : n.cleaned.Unmarked := by
  induction n using Node.induct with
  | h n ih =>
    obtain ⟨form, span⟩ := n
    obtain ⟨hform, hchildren⟩ := unmarked_iff.1 hn
    have hparts := forall_children_cleaned (P := Unmarked)
      (fun ⟨_, _⟩ h => (unmarked_iff.1 h).2) fun c hc => ih c hc (hchildren c hc)
    rw [cleaned_eq]
    rcases Form.settled_cases ((form.map Node.cleaned).mapBody (·.flatMap members)) span with
      ⟨c, hc, h⟩ | ⟨form', h, hmarked, -, hsub, -⟩
    · rw [form_mk, span_mk, h]
      exact hparts c hc
    · rw [form_mk, span_mk, h, unmarked_iff]
      refine ⟨?_, fun c hc => hparts c (hsub c hc)⟩
      rw [hmarked, Form.isMarked_mapBody, Form.isMarked_map, hform]

end Node

theorem minify_minimal_eq {n : Node} (hn : n.Unmarked) :
    minify .minimal n = ⟨.ok n.cleaned, []⟩ := by
  obtain ⟨raised, hend, -, hwarnings, hraised⟩ := leaves_reduce_minimal hn [] .initial rfl
  obtain rfl : raised = [] := List.eq_nil_iff_forall_not_mem.2 hraised
  have hresult : ((n.reduce .minimal).run .initial).1 = .ok n.cleaned := by
    cases hr : ((n.reduce .minimal).run .initial).1 with
    | ok m =>
      rw [hr] at hend
      exact congrArg _ hend
    | error f =>
      rw [hr] at hend
      exact hend.elim
  exact congrArg₂ Outcome.mk hresult hwarnings

/-- With all features off but warnings the pass comes to an end without a fault, and it finds nothing
to warn of, on every tree without marks: it cleans up the structure and does nothing else, and a
second run does nothing. -/
theorem minify_minimal_cleans {n : Node} (hn : n.Unmarked) :
    minify .minimal n = ⟨.ok n.cleaned, []⟩ ∧
      minify .minimal n.cleaned = ⟨.ok n.cleaned, []⟩ := by
  refine ⟨minify_minimal_eq hn, ?_⟩
  rw [minify_minimal_eq hn.cleaned, Node.cleaned_of_neat n.neat_cleaned]

/-- `{f();{;g();}}l:{h();;}for(;;;){if(!k(););}`, a tree that no text has: `l` has no references, the
`for` starts with an empty statement and `!` stands before a statement. -/
theorem minify_minimal_cleans_nested :
    let call (name : String) : Node := Build.callStatement name []
    let test : Node := Build.branch (Build.not (call "k")) Build.empty none
    let n : Node := Build.program [
      Build.block [call "f", Build.block [Build.empty, call "g"]],
      (Form.labeled ⟨"l", 0⟩ (Build.block [call "h", Build.empty])).node,
      (Form.forLoop (some Build.empty) none none (Build.block [test])).node]
    let n' : Node := Build.program [call "f", call "g", call "h",
      (Form.forLoop none none none test).node]
    n.Unmarked ∧ n.cleaned = n' ∧
      minify .minimal n = ⟨.ok n', []⟩ ∧ minify .minimal n' = ⟨.ok n', []⟩ := by
  intro call test n n'
  have hn : n.Unmarked := by
    simp [n, test, call, Node.unmarked_iff, Form.isMarked, Form.children, Form.node, Build.program,
      Build.block, Build.branch, Build.not, Build.unary, Build.empty, Build.callStatement,
      Build.statement, Build.call, Build.identifier]
  have hcleaned : n.cleaned = n' := by
    simp [n, n', test, call, Node.cleaned_eq, Form.map, Form.mapBody, Form.settled, Node.members,
      Node.isEmpty, Form.node, Build.program, Build.block, Build.branch, Build.not, Build.unary,
      Build.empty, Build.callStatement, Build.statement, Build.call, Build.identifier]
  rw [← hcleaned]
  exact ⟨hn, rfl, minify_minimal_cleans hn⟩

end ScriptMinifier
