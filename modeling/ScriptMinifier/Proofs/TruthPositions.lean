import ScriptMinifier.Proofs.Aftermath
import ScriptMinifier.Proofs.Places
import ScriptMinifier.Proofs.Reduce
import ScriptMinifier.Proofs.TwoRuns
import ScriptMinifier.Tree.Build

namespace ScriptMinifier

open Context (Reroled)
open Pass (Leaves Relational)

/-- A form that holds a node, and the place in it that leads to the node. -/
structure Ancestor where
  form : Form Node
  place : Place

namespace Ancestor

/-- Whether the place is the operand of `!` or the condition of an `if`, a `?:` or a loop. -/
def isTest (a : Ancestor) : Bool :=
  match a.form, a.place with
  | .unary .not _, .operand => true
  | .branch .., .condition | .conditional .., .condition | .loop .., .condition
  | .forLoop .., .condition => true
  | _, _ => false

def isLogical (a : Ancestor) : Bool :=
  match a.form with
  | .binary op _ _ => op.isLogical
  | _ => false

/-- An enclosure asks for the truth where the ancestor tests it, and passes on what it is asked
where the ancestor is logical. -/
def Matches (a : Ancestor) (e : Enclosure) : Prop :=
  ∀ truth, e.kind.asksTruth e.role truth = (a.isTest || a.isLogical && truth)

end Ancestor

/-- The path from a node outwards, the innermost ancestor first. -/
abbrev Trail := List Ancestor

namespace Trail

/-- The path passes `&&` and `||`, if any, and then comes to a test. -/
inductive ReachesTest : Trail → Prop
  | test {a trail} : a.isTest = true → ReachesTest (a :: trail)
  | logical {a trail} : a.isLogical = true → ReachesTest trail → ReachesTest (a :: trail)

variable {a : Ancestor} {trail : Trail}

theorem not_reachesTest_nil : ¬ ReachesTest [] := nofun

theorem reachesTest_cons :
    ReachesTest (a :: trail) ↔ a.isTest = true ∨ a.isLogical = true ∧ ReachesTest trail := by
  constructor
  · rintro (h | ⟨h, ht⟩)
    · exact .inl h
    · exact .inr ⟨h, ht⟩
  · rintro (h | ⟨h, ht⟩)
    · exact .test h
    · exact .logical h ht

instance decidableReachesTest : DecidablePred ReachesTest
  | [] => isFalse not_reachesTest_nil
  | _ :: trail =>
    have := decidableReachesTest trail
    decidable_of_iff' _ reachesTest_cons

end Trail

namespace Work

variable {α β : Type}

/-- The work with each node beside its place. The assignments that stand for a declaration are taken
for its value. -/
def placed : Work α → Work (Place × α)
  | drop => drop
  | replace bindings assignments? => replace bindings (assignments?.map (.value, ·))
  | rebuild form => rebuild form.placed

@[simp] theorem placed_map (f : α → β) (work : Work α) :
    (work.map f).placed = work.placed.map (Prod.map id f) := by
  cases work with
  | drop => rfl
  | replace bindings assignments? => cases assignments? <;> rfl
  | rebuild form => exact congrArg rebuild (form.placed_map f)

@[simp] theorem map_snd_placed (work : Work α) : work.placed.map Prod.snd = work := by
  cases work with
  | drop => rfl
  | replace bindings assignments? => cases assignments? <;> rfl
  | rebuild form => exact congrArg rebuild form.map_snd_placed

end Work

namespace Node

/-- The pass, but at each node it does `ask` with the path outwards: just after the node is entered,
and again when its children are reduced. -/
def reduceAsking (o : Options) (ask : Trail → Pass Unit) (n : Node) (trail : Trail) : Pass Node :=
  n.reduceBy o (ask trail) (fun c => reduceAsking o ask c.2.1 (⟨n.form, c.1⟩ :: trail))
    (n.lighterWork o).placed
termination_by n.weight
decreasing_by exact c.2.2

theorem reduceAsking_eq (o : Options) (ask : Trail → Pass Unit) (n : Node) (trail : Trail) :
    n.reduceAsking o ask trail = n.reduceBy o (ask trail)
      (fun c => reduceAsking o ask c.2 (⟨n.form, c.1⟩ :: trail)) (n.work o).placed := by
  rw [← map_val_lighterWork, Work.placed_map, reduceBy_map, reduceAsking]
  rfl

/-- The pass does not look at places. -/
theorem reduce_eq_placed (o : Options) (n : Node) :
    n.reduce o = n.reduceBy o (pure ()) (fun c => reduce o c.2) (n.work o).placed := by
  have h := reduceBy_map o (pure ()) (reduce o) Prod.snd n (n.work o).placed
  rw [Work.map_snd_placed] at h
  rw [reduce_eq, h]

end Node

namespace Pass

variable {α β : Type} {D : Context → Prop}

/-- From a context of the class `D` two steps come to the same end in the same state, in which the
context is of the class again. -/
def SameFrom (D : Context → Prop) (p q : Pass α) : Prop :=
  ∀ s, D s.context → p.run s = q.run s ∧ D (q.run s).2.context

/-- In contexts of the class the step does nothing. -/
def Idle (D : Context → Prop) (p : Pass Unit) : Prop :=
  ∀ s, D s.context → p.run s = (.ok (), s)

namespace SameFrom

variable {p q : Pass α} {c : Context}

protected theorem bind {f g : α → Pass β} (h : SameFrom D p q) (hf : ∀ a, SameFrom D (f a) (g a)) :
    SameFrom D (p >>= f) (q >>= g) := by
  intro s hs
  obtain ⟨hrun, hcontext⟩ := h s hs
  rw [run_bind, run_bind, hrun]
  generalize q.run s = end_ at hcontext
  obtain ⟨r, s'⟩ := end_
  cases r with
  | error fault => exact ⟨rfl, hcontext⟩
  | ok a => exact hf a s' hcontext

theorem relational : Relational fun _ p q => SameFrom D p q :=
  ⟨fun _ _ hs => ⟨rfl, hs⟩, .bind⟩

theorem of_leaves {P : Position → Prop} {Q : α → Prop} (h : Leaves D P p Q) : SameFrom D p p := by
  intro s hs
  obtain ⟨_, -, hcontext, -⟩ := h s hs
  exact ⟨rfl, hcontext⟩

theorem idle_bind {ask : Pass Unit} (hask : Idle D ask) (h : SameFrom D p q) :
    SameFrom D (ask >>= fun _ => p) q := by
  intro s hs
  have hrun : (ask >>= fun _ => p).run s = p.run s := by
    rw [run_bind, hask s hs]
    rfl
  rw [hrun]
  exact h s hs

/-- A step may look at its context. -/
theorem context {f g : Context → Pass β} (h : ∀ c, D c → SameFrom D (f c) (g c)) :
    SameFrom D (Pass.context >>= f) (Pass.context >>= g) :=
  fun s hs => h s.context hs s hs

theorem within {e : Enclosure} (h : SameFrom (Reroled (e :: c)) p q) :
    SameFrom (· = c) (within e p) (within e q) := by
  rintro s rfl
  obtain ⟨hrun, hcontext⟩ := h { s with context := e :: s.context } (.refl _)
  refine ⟨?_, hcontext.tail⟩
  rw [run_within, run_within, hrun]

theorem inRole {role : Role} (h : SameFrom (· = c.setRole role) p q) :
    SameFrom (Reroled c) (inRole role p) (inRole role q) := by
  intro s hs
  obtain ⟨hrun, hcontext⟩ := h { s with context := s.context.setRole role } (hs.setRole role)
  exact ⟨hrun, role, hcontext⟩

end SameFrom

end Pass

open Pass (SameFrom Idle)

section Operations

variable {o : Options} {e : Enclosure} {c : Context}

theorem sameFrom_tidy {α : Type} {step step' : α → Pass Node} {as : List α}
    (h : ∀ a ∈ as, SameFrom (· = c.setRole .other) (step a) (step' a)) :
    SameFrom (Reroled c) (Statements.tidy o step as) (Statements.tidy o step' as) := by
  refine (SameFrom.relational.mapM_list fun a ha => (h a ha).inRole).bind fun ns => ?_
  dsimp only
  split
  · refine SameFrom.bind ?_ fun _ => SameFrom.relational.pure _
    exact .of_leaves (P := fun _ => True)
      (Statements.judge_prune Leaves.compositional fun _ _ _ _ => .warn trivial)
  · exact SameFrom.relational.pure _

theorem sameFrom_simplify (form : Form Node) (span : Span) :
    SameFrom (Reroled (e :: c)) (Rule.simplify o form span) (Rule.simplify o form span) := by
  have hgrounded : Pass.Grounded c.testsTruth (fun _ => True) (fun _ => True) fun _ p Q =>
      Leaves (Reroled (e :: c)) (fun _ => True) p Q :=
    Leaves.grounded (P := fun _ => True) fun _ h => h.onlyTruthMatters
  exact .of_leaves
    (Rule.judge_simplify hgrounded trivial (fun _ _ => trivial) (Rule.tests_any form))

end Operations

theorem Context.testsTruth_cons (e : Enclosure) (c : Context) :
    testsTruth (e :: c) = e.kind.asksTruth e.role c.testsTruth := by
  obtain ⟨kind, role⟩ := e
  cases kind <;> rfl

namespace Form

variable {α : Type} {form : Form α} {k : Category} {c : Place × α}

theorem mem_parts_of_placed (h : (k, c) ∈ form.placed.parts) : (k, c.2) ∈ form.parts := by
  rw [← form.map_snd_placed, parts_map]
  exact List.mem_map.2 ⟨_, h, rfl⟩

end Form

namespace Ancestor

variable {o : Options} {n : Node} {k : Category} {c : Place × Node}

/-- What a child is asked is told by its place. -/
theorem matches_of_placed (h : (k, c) ∈ (o.hoist.surfaceForm n.span n.form).placed.parts) :
    Matches ⟨n.form, c.1⟩ ⟨n.form.enclosureKind, k.role⟩ := by
  obtain ⟨form, span⟩ := n
  intro truth
  cases form with
  | branch x b v =>
    simp only [Hoist.surfaceForm, Node.form_mk, Form.placed, Form.parts, List.mem_cons,
      Prod.mk.injEq, List.mem_map, Option.mem_toList, Option.map_eq_some_iff] at h
    obtain ⟨rfl, rfl⟩ | ⟨rfl, rfl⟩ | ⟨_, ⟨_, -, rfl⟩, rfl, rfl⟩ := h <;> rfl
  | conditional x a b =>
    simp only [Hoist.surfaceForm, Node.form_mk, Form.placed, Form.parts, List.mem_cons,
      Prod.mk.injEq, List.not_mem_nil, or_false] at h
    obtain ⟨rfl, rfl⟩ | ⟨rfl, rfl⟩ | ⟨rfl, rfl⟩ := h <;> rfl
  | loop kind x b =>
    simp only [Hoist.surfaceForm, Node.form_mk, Form.placed, Form.parts, List.mem_cons,
      Prod.mk.injEq, List.not_mem_nil, or_false] at h
    obtain ⟨rfl, rfl⟩ | ⟨rfl, rfl⟩ := h <;> rfl
  | forLoop i x s b =>
    simp only [Hoist.surfaceForm, Node.form_mk, Form.placed, Form.parts, List.mem_append,
      List.mem_cons, Prod.mk.injEq, List.mem_map, Option.mem_toList, Option.map_eq_some_iff,
      List.not_mem_nil, or_false] at h
    obtain ((⟨_, ⟨_, -, rfl⟩, rfl, rfl⟩ | ⟨_, ⟨_, -, rfl⟩, rfl, rfl⟩) |
      ⟨_, ⟨_, -, rfl⟩, rfl, rfl⟩) | ⟨rfl, rfl⟩ := h <;> rfl
  | unary op x =>
    obtain ⟨-, rfl⟩ : _ ∧ c = (.operand, x) := by
      simpa [Hoist.surfaceForm, Form.placed, Form.parts] using h
    cases op <;> rfl
  | binary op x y => cases op <;> rfl
  | _ => rfl

end Ancestor

section Run

variable {o : Options} {ask : Trail → Pass Unit} {D : Trail → Context → Prop}

/-- Questions that do nothing in the contexts in which they are asked change nothing. `D` relates
paths and contexts, and is kept from a node to its children. -/
theorem sameFrom_reduceAsking {trail : Trail} {c : Context}
    (hask : ∀ trail e c, D trail c → Idle (Reroled (e :: c)) (ask trail))
    (hD : ∀ a e trail c, a.Matches e → D trail c → D (a :: trail) (e :: c)) (n : Node)
    (h : D trail c) : SameFrom (· = c) (n.reduceAsking o ask trail) (n.reduce o) := by
  induction n using Node.reduceInduct o generalizing trail c with
  | unmarked form span hm ihParts =>
    have hchild {k : Category} {a : Place × Node}
        (ha : (k, a) ∈ (o.hoist.surfaceForm span form).placed.parts) :
        SameFrom (· = Context.setRole k.role ((⟨form, span⟩ : Node).enclosure :: c))
          (a.2.reduceAsking o ask (⟨form, a.1⟩ :: trail)) (a.2.reduce o) :=
      ihParts k a.2 (Form.mem_parts_of_placed ha)
        (hD _ _ _ _ (Ancestor.matches_of_placed (n := ⟨form, span⟩) ha) h)
    rw [Node.reduceAsking_eq, Node.reduce_eq_placed, Node.work_unmarked hm, Work.placed,
      Node.reduceBy, Node.reduceBy]
    simp only [pure_bind]
    refine .within (.idle_bind (hask _ _ _ h) (.bind ?_ fun form' =>
      .idle_bind (hask _ _ _ h) (sameFrom_simplify form' span)))
    exact SameFrom.relational.traverse (fun k a ha => (hchild ha).inRole) fun body hb =>
      sameFrom_tidy fun a ha => hchild (Form.mem_parts_of_body? hb ha)
  | declaration l span hl =>
    rw [Node.reduceAsking_eq, Node.reduce_eq_placed, Node.work_declaration hl, Work.placed,
      Node.reduceBy, Node.reduceBy]
    simp only [pure_bind]
    exact .within (.idle_bind (hask _ _ _ h) (SameFrom.relational.pure _))
  | definitions kind bs span ihAssignments =>
    rw [Node.reduceAsking_eq, Node.reduce_eq_placed, Node.work_definitions, Work.placed,
      Node.reduceBy, Node.reduceBy]
    simp only [pure_bind]
    refine .within (.idle_bind (hask _ _ _ h) (.context fun context _ => .bind ?_ fun _ =>
      .idle_bind (hask _ _ _ h) (SameFrom.relational.pure _)))
    refine SameFrom.relational.mapM_option fun a ha => .inRole ?_
    obtain ⟨c, hc, rfl⟩ := Option.map_eq_some_iff.1 ha
    exact ihAssignments c hc (hD _ ⟨.other, .other⟩ _ _ (fun _ => rfl) h)

end Run

/-- Asks whether only the truth of the node at hand matters, and ends in a complaint if the answer
is not the one expected. -/
def Pass.expectTruth (complaint : Fault) (expected : Bool) : Pass Unit := do
  let answer := (← Pass.context).onlyTruthMatters
  if answer = expected then pure () else Pass.attempt (.error complaint)

theorem idle_expectTruth {complaint : Fault} {expected : Bool} {e : Enclosure} {c : Context}
    (h : c.testsTruth = expected) :
    Idle (Reroled (e :: c)) (Pass.expectTruth complaint expected) := by
  intro s hs
  have hanswer : s.context.onlyTruthMatters = expected := hs.onlyTruthMatters.trans h
  change (ite _ _ _ : Pass Unit).run s = _
  rw [if_pos hanswer]
  rfl

/-- At every node that the pass visits the stack tells what the path outwards says. A pass that asks
there, just after it has entered the node and again when the children are reduced, and at any other
answer would end in a complaint, whichever that is, comes to what the pass comes to; and it is the
pass if it asks nothing. -/
theorem stack_tells_position (o : Options) (n : Node) :
    (∀ trail, n.reduceAsking o (fun _ => pure ()) trail = n.reduce o) ∧
    ∀ (complaint : Fault) (ws : List Warning),
      (n.reduceAsking o (fun trail => Pass.expectTruth complaint trail.ReachesTest) []).run
        ⟨[], ws⟩ = (n.reduce o).run ⟨[], ws⟩ := by
  constructor
  · intro trail
    apply ExceptT.ext
    funext s
    exact (sameFrom_reduceAsking (D := fun _ _ => True) (fun _ _ _ _ _ _ => rfl)
      (fun _ _ _ _ _ _ => trivial) n trivial s rfl).1
  · intro complaint ws
    refine (sameFrom_reduceAsking (D := fun trail c => c.testsTruth = decide trail.ReachesTest)
      (fun _ _ _ h => idle_expectTruth h) ?_ n rfl ⟨[], ws⟩ rfl).1
    intro a e trail c ha h
    rw [Context.testsTruth_cons, ha, h]
    simp [Trail.reachesTest_cons]

/-- Another answer would be noticed: a pass that expects `false` at the operand of `!` ends in the
complaint. -/
example (complaint : Fault) :
    (((Build.not (Build.identifier "a")).reduceAsking .full
      (fun _ => Pass.expectTruth complaint false) []).run .initial).1 = .error complaint := by
  cbv

end ScriptMinifier
