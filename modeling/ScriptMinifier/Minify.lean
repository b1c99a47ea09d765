import ScriptMinifier.Hoisting.Weight
import ScriptMinifier.Rules
import ScriptMinifier.Statements

/-!
The reducing pass. A node is reduced as the innermost enclosure of its children: a scope first
hoists its declarations, then the children are reduced in evaluation order and statement lists
tidied, and last the rule for the form applies. A hoisted declaration is replaced instead: a
function by nothing, a `var` by its reduced assignments.
-/

namespace ScriptMinifier

/-- What there is to do at a node, over the nodes that the pass goes on to. -/
inductive Work (α : Type) where
  /-- A marked function goes, for its copy stands at the top of the scope. -/
  | drop
  /-- A marked `var` gives way to its assignments. -/
  | replace (bindings : List (Binding Node)) (assignments? : Option α)
  /-- The rule for the form is applied once the parts are reduced. -/
  | rebuild (form : Form α)

namespace Work

variable {α β : Type}

def map (f : α → β) : Work α → Work β
  | drop => drop
  | replace bindings assignments? => replace bindings (assignments?.map f)
  | rebuild form => rebuild (form.map f)

/-- The nodes that the pass goes on to. -/
def nodes : Work α → List α
  | drop => []
  | replace _ assignments? => assignments?.toList
  | rebuild form => form.children

/-- As `map`, for a function that needs to know something about each node. -/
def pmap {p : α → Prop} (f : (a : α) → p a → β) : (work : Work α) → (∀ a ∈ work.nodes, p a) → Work β
  | drop, _ => drop
  | replace bindings assignments?, h =>
    replace bindings (assignments?.pmap f fun a ha => h a (Option.mem_toList.2 ha))
  | rebuild form, h => rebuild (form.pmap f h)

theorem map_val_pmap {p : α → Prop} (work : Work α) (h : ∀ a ∈ work.nodes, p a) :
    (work.pmap Subtype.mk h).map Subtype.val = work := by
  cases work with
  | drop => rfl
  | replace bindings assignments? => cases assignments? <;> rfl
  | rebuild form => exact congrArg rebuild (form.map_val_pmap h)

end Work

namespace Node

variable {α β : Type}

/-- What the pass does at a node, where it goes on to other nodes by `call`. Just after the node is
entered, and again when those nodes are reduced, it does `ask`. -/
def reduceBy (o : Options) (ask : Pass Unit) (call : α → Pass Node) (n : Node) (work : Work α) :
    Pass Node :=
  Pass.within n.enclosure do
    ask
    match work with
    | .drop => return .empty n.span
    | .replace bindings assignments? =>
      let parent? := (← Pass.context).outer? 0
      let assignments? ← assignments?.mapM fun c => Pass.inRole .other (call c)
      ask
      return Rule.placeAssignments parent? bindings assignments? n.span
    | .rebuild form =>
      let form ← form.traverse (fun role c => Pass.inRole role (call c)) (Statements.tidy o call)
      ask
      Rule.simplify o form n.span

theorem reduceBy_map (o : Options) (ask : Pass Unit) (call : β → Pass Node) (f : α → β) (n : Node)
    (work : Work α) :
    n.reduceBy o ask call (work.map f) = n.reduceBy o ask (fun a => call (f a)) work := by
  cases work with
  | drop => rfl
  | replace bindings assignments? => cases assignments? <;> rfl
  | rebuild form => simp only [reduceBy, Work.map, Form.traverse_map, Statements.tidy_map]

/-- A scope hoists its declarations before anything else. -/
def work (o : Options) (n : Node) : Work Node :=
  match n.form with
  | .declaration ⟨_, _, _, _, true⟩ => .drop
  | .definitions _ bindings true => .replace bindings (assignments? bindings)
  | form => .rebuild (o.hoist.surfaceForm n.span form)

/-- The pass goes on to lighter nodes only. -/
theorem weight_lt_of_mem_work {o : Options} {n c : Node} (hc : c ∈ (n.work o).nodes) :
    c.weight < n.weight := by
  obtain ⟨form, span⟩ := n
  simp only [work, form_mk, span_mk] at hc
  split at hc
  · cases hc
  · exact weight_lt_of_assignments? (Option.mem_toList.1 hc)
  · exact Hoist.weight_lt_of_mem_surfaceForm (n := ⟨form, span⟩) hc

/-- The work at a node, over nodes that are known to weigh less. -/
def lighterWork (o : Options) (n : Node) : Work { c : Node // c.weight < n.weight } :=
  (n.work o).pmap Subtype.mk fun _ => weight_lt_of_mem_work

@[simp] theorem map_val_lighterWork (o : Options) (n : Node) :
    (n.lighterWork o).map Subtype.val = n.work o :=
  Work.map_val_pmap _ _

/-- Reduces a node. -/
def reduce (o : Options) (n : Node) : Pass Node :=
  n.reduceBy o (pure ()) (fun c => reduce o c.1) (n.lighterWork o)
termination_by n.weight
decreasing_by exact c.2

/-- The pass without the proofs that it ends. -/
theorem reduce_eq (o : Options) (n : Node) :
    n.reduce o = n.reduceBy o (pure ()) (reduce o) (n.work o) := by
  rw [← map_val_lighterWork, reduceBy_map, reduce]

end Node

/-- What a run comes to: the new tree or a fault, and the warnings in the order they were raised. -/
structure Outcome where
  result : Except Fault Node
  warnings : List Warning

/-- Reduces a tree once. -/
def minify (o : Options) (n : Node) : Outcome :=
  let (result, session) := (n.reduce o).run .initial
  ⟨result, session.warnings⟩

end ScriptMinifier
