import ScriptMinifier.Fault
import ScriptMinifier.Options
import ScriptMinifier.Primitive.Operation

namespace ScriptMinifier

namespace UnaryOperator

/-- The operators that need only the value of their operand. -/
def isPure : UnaryOperator → Bool
  | not | typeOf | bitNot | negate | plus => true
  | _ => false

end UnaryOperator

namespace Node

/-- The value of a constant expression, `none` for any other expression. Both operands of a binary
operator have to be constant, also where only one of them would be evaluated. -/
def constant? : Node → Except Fault (Option Primitive)
  | ⟨.string s, _⟩ => .ok (some (.string s))
  | ⟨.number x, _⟩ => .ok (some (.number x))
  | ⟨.boolean b, _⟩ => .ok (some (.boolean b))
  | ⟨.null, _⟩ => .ok (some .null)
  | ⟨.undefined, _⟩ => .ok (some .undefined)
  | ⟨.unary op operand, _⟩ =>
    if op.isPure then do
      let v? ← constant? operand
      return v?.bind op.eval?
    else .ok none
  | ⟨.binary op left right, _⟩ => do
    let v? ← constant? left
    let w? ← constant? right
    return v?.bind fun v => w?.bind fun w => op.eval? v w
  | ⟨.conditional condition consequent alternative, _⟩ => do
    match ← constant? condition with
    | some v => if v.truthy then constant? consequent else constant? alternative
    | none => return none
  | n => if n.isStatement then .error n.evaluationFault else .ok none

section Equations

variable {span : Span}

theorem constant?_unary_eq (op : UnaryOperator) (x : Node) :
    (⟨.unary op x, span⟩ : Node).constant? =
      if op.isPure then do
        let v? ← constant? x
        return v?.bind op.eval?
      else .ok none := by
  rw [constant?]

theorem constant?_binary_eq (op : BinaryOperator) (x y : Node) :
    (⟨.binary op x y, span⟩ : Node).constant? = do
      let v? ← constant? x
      let w? ← constant? y
      return v?.bind fun v => w?.bind fun w => op.eval? v w := by
  rw [constant?]

theorem constant?_conditional_eq (c x y : Node) :
    (⟨.conditional c x y, span⟩ : Node).constant? = do
      match ← constant? c with
      | some v => if v.truthy then constant? x else constant? y
      | none => return none := by
  rw [constant?]

end Equations

end Node

/-- The literal that denotes a value. -/
def Primitive.literal : Primitive → Form Node
  | undefined => .undefined
  | null => .null
  | boolean b => .boolean b
  | number x => .number x
  | string s => .string s

/-- The literal for a value, at a given place. -/
def Primitive.toNode (v : Primitive) (span : Span) : Node := ⟨v.literal, span⟩

/-- Replaces a constant expression by its literal and reports its value. -/
def Options.foldConstant (o : Options) (n : Node) : Except Fault (Node × Option Primitive) := do
  if o.on .constants then
    match ← n.constant? with
    | some v => return (v.toNode n.span, some v)
    | none => return (n, none)
  else return (n, none)

end ScriptMinifier
