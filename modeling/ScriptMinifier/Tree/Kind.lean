import ScriptMinifier.Tree.Node

namespace ScriptMinifier

namespace Form

variable {α : Type}

/-- The name by which diagnostics call a form. -/
def kindName : Form α → String
  | expression _ => "SimpleStatement"
  | block _ => "Block"
  | empty => "Empty"
  | debugger => "Debugger"
  | labeled .. => "Labeled"
  | exit .returning _ => "Return"
  | exit .throwing _ => "Throw"
  | jump .leave _ => "Break"
  | jump .next _ => "Continue"
  | branch .. => "If"
  | loop .whileDo .. => "While"
  | loop .doWhile .. => "Do"
  | forLoop .. => "For"
  | forIn .. => "ForIn"
  | switch .. => "Switch"
  | case .. => "Case"
  | try_ .. => "Try"
  | catch_ .. => "Catch"
  | finally_ _ => "Finally"
  | with_ .. => "With"
  | definitions .. => "Definitions"
  | declaration _ => "Defun"
  | program _ => "Toplevel"
  | function _ => "Function"
  | string _ => "String"
  | number _ => "Number"
  | boolean true => "True"
  | boolean false => "False"
  | null => "Null"
  | undefined => "Undefined"
  | identifier _ => "Ident"
  | this => "This"
  | unary .. => "UnaryPrefix"
  | update .. => "UnaryPostfix"
  | binary .. => "Binary"
  | assign .. => "Assign"
  | conditional .. => "Conditional"
  | sequence .. => "Seq"
  | call .. => "Call"
  | construct .. => "New"
  | member .. => "Dot"
  | index .. => "Sub"
  | array _ => "Array"
  | object _ => "Object"

/-- Statements, clauses and whole programs; every other form is an expression. A function
declaration is a statement, a function expression is not. -/
def isStatement : Form α → Bool
  | expression _ | block _ | empty | debugger | labeled .. | exit .. | jump .. | branch .. | loop ..
  | forLoop .. | forIn .. | switch .. | case .. | try_ .. | catch_ .. | finally_ _ | with_ ..
  | definitions .. | declaration _ | program _ => true
  | _ => false

/-- Statements after which control never reaches the next one. -/
def isJump : Form α → Bool
  | exit .. | jump .. => true
  | _ => false

/-- Forms that open a scope for declarations. -/
def opensScope : Form α → Bool
  | declaration _ | function _ | program _ => true
  | _ => false

end Form

namespace Node

def kindName (n : Node) : String := n.form.kindName

def isStatement (n : Node) : Bool := n.form.isStatement

def isJump (n : Node) : Bool := n.form.isJump

def opensScope (n : Node) : Bool := n.form.opensScope

def isEmpty : Node → Bool
  | ⟨.empty, _⟩ => true
  | _ => false

end Node

end ScriptMinifier
