import ScriptMinifier.File.Names
import ScriptMinifier.Json.Basic

namespace ScriptMinifier

inductive Feature where
  /-- Join expression statements with the comma operator. -/
  | sequences
  /-- Write `a["b"]` as `a.b`. -/
  | properties
  /-- Drop statements after a jump. -/
  | deadCode
  | dropDebugger
  /-- Reserved for rules that change what unusual programs do. -/
  | risky
  /-- Simplify `if` and `?:`. -/
  | conditionals
  /-- Turn comparisons around when negating them, and loosen equality. -/
  | comparisons
  /-- Replace constant expressions by their value. -/
  | constants
  /-- Use that only the truth of a condition is seen, and write booleans as `!0` and `!1`. -/
  | booleans
  /-- Simplify loops whose condition is constant. -/
  | loops
  | hoistFunctions
  | hoistVariables
  /-- Report warnings. -/
  | warnings
deriving DecidableEq, Repr

instance : Named Feature where
  all := [.sequences, .properties, .deadCode, .dropDebugger, .risky, .conditionals, .comparisons,
    .constants, .booleans, .loops, .hoistFunctions, .hoistVariables, .warnings]
  name
    | .sequences => "sequences"
    | .properties => "properties"
    | .deadCode => "dead_code"
    | .dropDebugger => "drop_debugger"
    | .risky => "unsafe"
    | .conditionals => "conditionals"
    | .comparisons => "comparations"
    | .constants => "evaluate"
    | .booleans => "booleans"
    | .loops => "dwloops"
    | .hoistFunctions => "hoist_funs"
    | .hoistVariables => "hoist_vars"
    | .warnings => "warnings"

structure Options where
  on : Feature → Bool

namespace Options

/-- Everything on. -/
def full : Options := ⟨fun _ => true⟩

/-- Everything off but warnings: only the shape of statement lists is cleaned up. -/
def minimal : Options := ⟨fun f => f = .warnings⟩

def set (o : Options) (f : Feature) (value : Bool) : Options :=
  ⟨fun g => if g = f then value else o.on g⟩

@[simp] theorem on_set (o : Options) (f g : Feature) (value : Bool) :
    (o.set f value).on g = if g = f then value else o.on g := rfl

/-- Sets a feature by name; a name that no feature has changes nothing. -/
def setNamed (o : Options) (name : String) (value : Bool) : Options :=
  match Named.ofName? name with
  | some f => o.set f value
  | none => o

/-- Everything on but the named features. -/
def without (names : List String) : Options :=
  names.foldl (fun o name => o.setNamed name false) full

/-- The features that are on, in their fixed order. -/
def enabled (o : Options) : List Feature := (Named.all : List Feature).filter o.on

def toJson (o : Options) : Json :=
  .record ((Named.all : List Feature).map fun f => (Named.name f, .bool (o.on f)))

end Options

end ScriptMinifier
