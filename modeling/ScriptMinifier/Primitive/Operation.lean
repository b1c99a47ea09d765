import ScriptMinifier.Operator
import ScriptMinifier.Primitive.Comparison

namespace ScriptMinifier

namespace Primitive

/-- `+`: joins texts if one side is a string, else adds. -/
def add : Primitive → Primitive → Primitive
  | string a, w => string (a ++ w.toText)
  | v, string b => string (v.toText ++ b)
  | v, w => number (v.toNumber + w.toNumber)

def ofInt32 (n : Int32) : Primitive := number (Number.ofInt32 n)

/-- How far a shift operator shifts. -/
def shiftCount (v : Primitive) : UInt32 := v.uint32 &&& 31

end Primitive

open Primitive

/-- An operator that works on a reference, or needs an object, has no result here. -/
def UnaryOperator.eval? : UnaryOperator → Primitive → Option Primitive
  | not, v => some (boolean !v.truthy)
  | typeOf, v => some (string v.typeName)
  | bitNot, v => some (ofInt32 (~~~v.int32))
  | negate, v => some (number (-v.toNumber))
  | plus, v => some (number v.toNumber)
  | void, _ | delete, _ | increment, _ | decrement, _ => none

def BinaryOperator.eval? : BinaryOperator → Primitive → Primitive → Option Primitive
  | and, v, w => some (if v.truthy then w else v)
  | or, v, w => some (if v.truthy then v else w)
  | bitOr, v, w => some (ofInt32 (v.int32 ||| w.int32))
  | bitXor, v, w => some (ofInt32 (v.int32 ^^^ w.int32))
  | bitAnd, v, w => some (ofInt32 (v.int32 &&& w.int32))
  | add, v, w => some (v.add w)
  | sub, v, w => some (number (v.toNumber - w.toNumber))
  | mul, v, w => some (number (v.toNumber * w.toNumber))
  | div, v, w => some (number (v.toNumber / w.toNumber))
  | mod, v, w => some (number (Number.remainder v.toNumber w.toNumber))
  | shl, v, w => some (ofInt32 (v.int32 <<< w.shiftCount.toInt32))
  | shr, v, w => some (ofInt32 (v.int32 >>> w.shiftCount.toInt32))
  | ushr, v, w => some (number (v.uint32 >>> w.shiftCount).toFloat)
  | eq, v, w => some (boolean (v.looseEq w))
  | ne, v, w => some (boolean !v.looseEq w)
  | strictEq, v, w => some (boolean (v.strictEq w))
  | strictNe, v, w => some (boolean !v.strictEq w)
  | lt, v, w => some (boolean ((v.less? w).getD false))
  | gt, v, w => some (boolean ((w.less? v).getD false))
  | le, v, w => some (boolean ((w.less? v).any (!·)))
  | ge, v, w => some (boolean ((v.less? w).any (!·)))
  | inside, _, _ | instanceOf, _, _ => none

end ScriptMinifier
