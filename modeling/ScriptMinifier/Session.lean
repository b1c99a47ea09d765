import ScriptMinifier.Constant
import ScriptMinifier.Negation
import ScriptMinifier.Warning

namespace ScriptMinifier

/-- What an enclosing form is, as far as a rule asks. -/
inductive EnclosureKind where
  | branch | conditional | loop | forLoop | forIn | not | logical | other
deriving DecidableEq, Repr

def Form.enclosureKind {α : Type} : Form α → EnclosureKind
  | branch .. => .branch
  | conditional .. => .conditional
  | loop .. => .loop
  | forLoop .. => .forLoop
  | forIn .. => .forIn
  | unary .not _ => .not
  | binary op .. => if op.isLogical then .logical else .other
  | _ => .other

/-- An enclosing form and the child of it that is being reduced. -/
structure Enclosure where
  kind : EnclosureKind
  role : Role
deriving DecidableEq, Repr

def Node.enclosure (n : Node) : Enclosure := ⟨n.form.enclosureKind, .other⟩

/-- The innermost enclosure, which is that of the node at hand itself, comes first. -/
abbrev Context := List Enclosure

namespace Context

def setRole (role : Role) : Context → Context
  | [] => []
  | enclosure :: context => { enclosure with role } :: context

/-- The enclosing form `i` levels out; `0` is the parent of the node at hand. -/
def outer? (i : Nat) (context : Context) : Option Enclosure := context[i + 1]?

/-- Whether the innermost enclosure of `context` tests the truth of its child at hand, or passes
that child on to an enclosure that does. -/
def testsTruth : Context → Bool
  | [] => false
  | ⟨.branch, role⟩ :: _ | ⟨.conditional, role⟩ :: _ | ⟨.loop, role⟩ :: _ | ⟨.forLoop, role⟩ :: _ =>
    role = .condition
  | ⟨.not, _⟩ :: _ => true
  | ⟨.logical, _⟩ :: context => testsTruth context
  | ⟨.forIn, _⟩ :: _ | ⟨.other, _⟩ :: _ => false

/-- Whether only the truth of the node at hand matters. -/
def onlyTruthMatters (context : Context) : Bool := testsTruth context.tail

end Context

structure Session where
  context : Context
  warnings : List Warning
deriving DecidableEq, Repr

namespace Session

def initial : Session := ⟨[], []⟩

end Session

/-- A step of a run. -/
abbrev Pass := ExceptT Fault (StateM Session)

namespace Pass

def attempt {α : Type} (r : Except Fault α) : Pass α := ExceptT.mk (pure r)

def context : Pass Context := return (← get).context

/-- Runs a step inside an enclosure, which is gone afterwards, whatever the outcome. -/
def within {α : Type} (enclosure : Enclosure) (step : Pass α) : Pass α := ExceptT.mk fun s =>
  let (r, s) := step.run { s with context := enclosure :: s.context }
  (r, { s with context := s.context.tail })

/-- Runs a step for a child that has a role in the innermost enclosure. -/
def inRole {α : Type} (role : Role) (step : Pass α) : Pass α := do
  modify fun s => { s with context := s.context.setRole role }
  step

/-- Reports a warning, if warnings are on. -/
def report (o : Options) (w : Warning) : Pass Unit :=
  if o.on .warnings then modify fun s => { s with warnings := s.warnings ++ [w] } else pure ()

def warn (o : Options) (finding : Finding) (p : Position) : Pass Unit :=
  report o ⟨finding.template, p⟩

end Pass

end ScriptMinifier
