import ScriptMinifier.Tree.Kind

namespace ScriptMinifier

/-- A statement was found where an expression has to be evaluated or negated. -/
inductive Fault where
  | statementEvaluated (kind : String) (position : Position)
  | statementNegated (kind : String) (position : Position)
deriving DecidableEq, Repr

namespace Fault

def position : Fault → Position
  | statementEvaluated _ p | statementNegated _ p => p

def message : Fault → String
  | statementEvaluated kind p => "cannot evaluate statement " ++ kind ++ " [" ++ p.text ++ "]"
  | statementNegated kind p => "cannot negate statement " ++ kind ++ " [" ++ p.text ++ "]"

end Fault

namespace Node

def evaluationFault (n : Node) : Fault := .statementEvaluated n.kindName n.span.start

def negationFault (n : Node) : Fault := .statementNegated n.kindName n.span.start

end Node

end ScriptMinifier
