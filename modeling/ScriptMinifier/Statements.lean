import ScriptMinifier.Session
import ScriptMinifier.Tree.Walk

namespace ScriptMinifier

namespace Statements

/-- Puts the statements of a block in its place and drops empty statements. -/
def flatten : List Node → List Node
  | [] => []
  | ⟨.block body, _⟩ :: ns => body ++ flatten ns
  | ⟨.empty, _⟩ :: ns => flatten ns
  | n :: ns => n :: flatten ns

/-- What dropping a statement leaves behind: its function declarations as they are, its other
declarations without initializers. -/
def keptDeclaration? : Node → Option Node
  | ⟨.definitions kind bindings hoisted, span⟩ =>
    some ⟨.definitions kind (bindings.map Binding.bare) hoisted, span⟩
  | n@⟨.declaration _, _⟩ => some n
  | _ => none

/-- A search for declarations stays outside nested scopes and outside initializers. -/
def searchesBelow (n : Node) : Bool :=
  match n.form with
  | .definitions .. => false
  | _ => !n.opensScope

/-- The declarations in a statement that have to survive it. -/
def keptDeclarations (n : Node) : List Node := (n.visited searchesBelow).filterMap keptDeclaration?

/-- What an unreachable statement leaves in the list. A function declaration that stands in the list
itself stays without a warning. -/
def pruneStatement (o : Options) (n : Node) : Pass (List Node) :=
  match n.form with
  | .declaration _ => return [n]
  | _ => do
    let kept := keptDeclarations n
    kept.forM fun d => Pass.warn o .unreachableDeclarations d.span.start
    return kept

/-- Drops what follows the first jump, but for declarations. -/
def prune (o : Options) : List Node → Pass (List Node)
  | [] => return []
  | n :: ns =>
    if n.isJump then return n :: (← ns.mapM (pruneStatement o)).flatten
    else return n :: (← prune o ns)

/-- Joins each run of expression statements into one that stands where the run began. -/
def joinRuns : List Node → List Node
  | ⟨.expression a, span⟩ :: ⟨.expression b, _⟩ :: ns =>
    joinRuns (⟨.expression ⟨.sequence a b, span⟩, span⟩ :: ns)
  | n :: ns => n :: joinRuns ns
  | [] => []
termination_by ns => ns.length

/-- Joins runs of expression statements. If the list then is an expression and an exit with a value,
the value takes in the expression. -/
def join (ns : List Node) : List Node :=
  match joinRuns ns with
  | [⟨.expression a, span⟩, ⟨.exit kind (some value), exitSpan⟩] =>
    [⟨.exit kind (some ⟨.sequence a value, span⟩), exitSpan⟩]
  | ns => ns

/-- Tidies a statement list after `step` has reduced each statement. -/
def tidy {α : Type} (o : Options) (step : α → Pass Node) (ns : List α) : Pass (List Node) := do
  let ns := flatten (← ns.mapM fun n => Pass.inRole .other (step n))
  let ns ← if o.on .deadCode then prune o ns else pure ns
  return if o.on .sequences then join ns else ns

theorem tidy_map {α β : Type} (o : Options) (step : α → Pass Node) (f : β → α) (ns : List β) :
    tidy o step (ns.map f) = tidy o (fun b => step (f b)) ns := by
  simp [tidy, List.mapM_map, Function.comp_def]

end Statements

end ScriptMinifier
