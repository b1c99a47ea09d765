import ScriptMinifier.Options
import ScriptMinifier.Tree.Walk

/-!
Hoisting. Functions and variables declared anywhere in a scope are visible in all of it, so a scope
can list them at its top. A declaration that was hoisted stays where it is, with its mark set; the
reducing pass turns a marked function into nothing and a marked `var` into assignments.
-/

namespace ScriptMinifier

/-- What to hoist. -/
structure Hoist where
  functions : Bool
  vars : Bool
deriving DecidableEq, Repr

def Options.hoist (o : Options) : Hoist := ⟨o.on .hoistFunctions, o.on .hoistVariables⟩

namespace Hoist

/-- A search for declarations stays outside nested functions. -/
def searchesBelow (n : Node) : Bool :=
  match n.form with
  | .declaration _ | .function _ => false
  | _ => true

def isFunction (n : Node) : Bool :=
  match n.form with
  | .declaration _ => true
  | _ => false

/-- The bindings of a `var`. -/
def varsOf (n : Node) : List (Binding Node) :=
  match n.form with
  | .definitions .var bindings _ => bindings
  | _ => []

/-- The nodes of a scope outside nested functions. -/
def reach (body : List Node) : List Node := body.flatMap (Node.visited searchesBelow)

/-- Adds a binding; one of the same name is replaced where it stands. -/
def insert (bs : List (Binding Node)) (b : Binding Node) : List (Binding Node) :=
  match bs with
  | [] => [b]
  | c :: cs => if c.name = b.name then b :: cs else c :: insert cs b

/-- One binding for each name, in the order of first occurrence. -/
def distinct (bs : List (Binding Node)) : List (Binding Node) := bs.foldl insert []

def functionsIn (h : Hoist) (body : List Node) : List Node :=
  if h.functions then (reach body).filter isFunction else []

def varsIn (h : Hoist) (body : List Node) : List (Binding Node) :=
  if h.vars then distinct ((reach body).flatMap varsOf) else []

/-- Whether `h` hoists the declaration `n`. -/
def hoists (h : Hoist) (n : Node) : Bool :=
  match n.form with
  | .declaration _ => h.functions
  | .definitions .var _ _ => h.vars
  | _ => false

/-- Sets the marks of the declarations that are hoisted out of a statement. -/
def mark (h : Hoist) (n : Node) : Node :=
  Id.run (n.amend searchesBelow fun m => pure ⟨m.span, m.form.isHoisted || h.hoists m⟩)

/-- Appends the names that a parameter list does not have yet. -/
def extend (params names : List String) : List String :=
  names.foldl (fun ps x => if ps.contains x then ps else ps ++ [x]) params

/-- The declaration that stands for the hoisted variables, if there are any. -/
def declaration (bs : List (Binding Node)) (span : Span) : List Node :=
  if bs.isEmpty then [] else [⟨.definitions .var (bs.map Binding.bare) false, span⟩]

/-- Lists the declarations of a scope at its top. Given a parameter list, variables become further
parameters; without one they are declared by a new `var` at `span`. -/
def surface (h : Hoist) (params : Option (List String)) (span : Span) (body : List Node) :
    List Node × Option (List String) :=
  let vars := h.varsIn body
  let rest := h.functionsIn body ++ body.map h.mark
  match params with
  | some params => (rest, some (extend params (vars.map (·.name))))
  | none => (declaration vars span ++ rest, none)

/-- Hoists the declarations of a function. One that refers to `arguments` keeps its parameters, for
they are what `arguments` shows. -/
def surfaceLambda (h : Hoist) (span : Span) (l : Lambda Node) : Lambda Node :=
  let (body, params) := h.surface (if l.usesArguments then none else some l.params) span l.body
  { l with body, params := params.getD l.params }

/-- Hoists the declarations of a form that opens a scope. -/
def surfaceForm (h : Hoist) (span : Span) : Form Node → Form Node
  | .program body => .program (h.surface none span body).1
  | .declaration l => .declaration (h.surfaceLambda span l)
  | .function l => .function (h.surfaceLambda span l)
  | form => form

end Hoist

/-- The assignment that an initializer makes. -/
def Binding.assignment? (b : Binding Node) : Option Node :=
  b.value.map fun v => ⟨.assign .assign ⟨.identifier b.name, b.span⟩ v, b.span⟩

/-- Expressions joined by commas from the right. -/
def Node.commaJoined : Node → List Node → Node
  | n, [] => n
  | n, m :: ms => ⟨.sequence n (commaJoined m ms), n.span⟩

/-- The assignments that a declaration makes, in order; none without initializers. -/
def assignments? (bs : List (Binding Node)) : Option Node :=
  match bs.filterMap Binding.assignment? with
  | [] => none
  | n :: ns => some (n.commaJoined ns)

end ScriptMinifier
