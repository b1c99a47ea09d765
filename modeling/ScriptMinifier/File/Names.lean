import ScriptMinifier.Tree.Form

namespace ScriptMinifier

/-- A finite family whose members have names, no two the same. -/
class Named (α : Type) where
  all : List α
  name : α → String
  find_name (a : α) : all.find? (fun b => name b = name a) = some a := by intro a; cases a <;> rfl

namespace Named

variable {α : Type} [Named α]

def ofName? (s : String) : Option α := (all : List α).find? fun a => name a = s

@[simp] theorem ofName?_name (a : α) : ofName? (name a) = some a := find_name a

end Named

instance : Named UnaryOperator where
  all := [.not, .typeOf, .void, .delete, .bitNot, .negate, .plus, .increment, .decrement]
  name
    | .not => "Not"
    | .typeOf => "TypeOf"
    | .void => "Void"
    | .delete => "Delete"
    | .bitNot => "BitNot"
    | .negate => "Neg"
    | .plus => "Plus"
    | .increment => "Incr"
    | .decrement => "Decr"

instance : Named BinaryOperator where
  all := [.or, .and, .bitOr, .bitXor, .bitAnd, .eq, .ne, .strictEq, .strictNe, .lt, .le, .gt,
    .ge, .inside, .instanceOf, .shl, .shr, .ushr, .add, .sub, .mul, .div, .mod]
  name
    | .or => "Or"
    | .and => "And"
    | .bitOr => "BitOr"
    | .bitXor => "BitXor"
    | .bitAnd => "BitAnd"
    | .eq => "Eq"
    | .ne => "Ne"
    | .strictEq => "StrictEq"
    | .strictNe => "StrictNe"
    | .lt => "Lt"
    | .le => "Le"
    | .gt => "Gt"
    | .ge => "Ge"
    | .inside => "In"
    | .instanceOf => "InstanceOf"
    | .shl => "Shl"
    | .shr => "Shr"
    | .ushr => "UShr"
    | .add => "Add"
    | .sub => "Sub"
    | .mul => "Mul"
    | .div => "Div"
    | .mod => "Mod"

instance : Named AssignOperator where
  all := [.assign, .add, .sub, .mul, .div, .mod, .shl, .shr, .ushr, .bitAnd, .bitOr, .bitXor]
  name
    | .assign => "Assign"
    | .add => "Add"
    | .sub => "Sub"
    | .mul => "Mul"
    | .div => "Div"
    | .mod => "Mod"
    | .shl => "Shl"
    | .shr => "Shr"
    | .ushr => "UShr"
    | .bitAnd => "BitAnd"
    | .bitOr => "BitOr"
    | .bitXor => "BitXor"

instance : Named ExitKind where
  all := [.returning, .throwing]
  name
    | .returning => "Return"
    | .throwing => "Throw"

instance : Named JumpKind where
  all := [.leave, .next]
  name
    | .leave => "Break"
    | .next => "Continue"

instance : Named LoopKind where
  all := [.whileDo, .doWhile]
  name
    | .whileDo => "While"
    | .doWhile => "DoWhile"

instance : Named DeclarationKind where
  all := [.var, .const]
  name
    | .var => "Var"
    | .const => "Const"

instance : Named PropertyKind where
  all := [.value, .getter, .setter]
  name
    | .value => "KeyValue"
    | .getter => "Getter"
    | .setter => "Setter"

end ScriptMinifier
