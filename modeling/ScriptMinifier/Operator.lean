namespace ScriptMinifier

/-- Operators of one operand. Only `increment` and `decrement` also stand after it. -/
inductive UnaryOperator where
  | not | typeOf | void | delete | bitNot | negate | plus | increment | decrement
deriving DecidableEq, Repr

namespace UnaryOperator

def text : UnaryOperator → String
  | not => "!"
  | typeOf => "typeof"
  | void => "void"
  | delete => "delete"
  | bitNot => "~"
  | negate => "-"
  | plus => "+"
  | increment => "++"
  | decrement => "--"

/-- Operators spelled as a word, which must not touch a following word. -/
def isWord : UnaryOperator → Bool
  | typeOf | void | delete => true
  | _ => false

end UnaryOperator

inductive BinaryOperator where
  | or | and | bitOr | bitXor | bitAnd | eq | ne | strictEq | strictNe | lt | le | gt | ge
  | inside | instanceOf | shl | shr | ushr | add | sub | mul | div | mod
deriving DecidableEq, Repr

namespace BinaryOperator

def text : BinaryOperator → String
  | or => "||"
  | and => "&&"
  | bitOr => "|"
  | bitXor => "^"
  | bitAnd => "&"
  | eq => "=="
  | ne => "!="
  | strictEq => "==="
  | strictNe => "!=="
  | lt => "<"
  | le => "<="
  | gt => ">"
  | ge => ">="
  | inside => "in"
  | instanceOf => "instanceof"
  | shl => "<<"
  | shr => ">>"
  | ushr => ">>>"
  | add => "+"
  | sub => "-"
  | mul => "*"
  | div => "/"
  | mod => "%"

/-- Binding strength: the higher, the tighter. Comma, assignment and `?:` bind looser than all
of these, unary operators tighter. -/
def precedence : BinaryOperator → Nat
  | or => 4
  | and => 5
  | bitOr => 6
  | bitXor => 7
  | bitAnd => 8
  | eq | ne | strictEq | strictNe => 9
  | lt | le | gt | ge | inside | instanceOf => 10
  | shl | shr | ushr => 11
  | add | sub => 12
  | mul | div | mod => 13

/-- The operators that may leave their right operand unevaluated. -/
def isLogical : BinaryOperator → Bool
  | and | or => true
  | _ => false

/-- Operators spelled as a word. -/
def isWord : BinaryOperator → Bool
  | inside | instanceOf => true
  | _ => false

end BinaryOperator

/-- Assignment, plain or through an operator. -/
inductive AssignOperator where
  | assign | add | sub | mul | div | mod | shl | shr | ushr | bitAnd | bitOr | bitXor
deriving DecidableEq, Repr

def AssignOperator.text : AssignOperator → String
  | assign => "="
  | add => "+="
  | sub => "-="
  | mul => "*="
  | div => "/="
  | mod => "%="
  | shl => "<<="
  | shr => ">>="
  | ushr => ">>>="
  | bitAnd => "&="
  | bitOr => "|="
  | bitXor => "^="

end ScriptMinifier
