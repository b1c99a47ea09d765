import ScriptMinifier.Number.Layout
import ScriptMinifier.Number.Literal
import ScriptMinifier.Number.Word

namespace ScriptMinifier

/-- What a constant expression folds to. -/
inductive Primitive where
  | undefined
  | null
  | boolean (value : Bool)
  | number (value : Float)
  | string (value : String)
deriving DecidableEq, Repr

namespace Primitive

/-- Zeros, NaN, the empty string, `null` and `undefined` count as false. -/
def truthy : Primitive → Bool
  | undefined | null => false
  | boolean b => b
  | number x => !x.isNaN && x != 0.0
  | string s => !s.isEmpty

def toNumber : Primitive → Float
  | undefined => Number.nan
  | null => 0.0
  | boolean b => if b then 1.0 else 0.0
  | number x => x
  | string s => Number.ofString s

def toText : Primitive → String
  | undefined => "undefined"
  | null => "null"
  | boolean b => if b then "true" else "false"
  | number x => String.ofList (Number.text x)
  | string s => s

/-- The value as an integer of 32 bits, with a sign or without; bit operators work on these. -/
def int32 (v : Primitive) : Int32 := Number.toInt32 v.toNumber

def uint32 (v : Primitive) : UInt32 := Number.toUInt32 v.toNumber

def toInt32 (v : Primitive) : Int := v.int32.toInt

def toUint32 (v : Primitive) : Nat := v.uint32.toNat

/-- What `typeof` answers. -/
def typeName : Primitive → String
  | undefined => "undefined"
  | null => "object"
  | boolean _ => "boolean"
  | number _ => "number"
  | string _ => "string"

end Primitive

end ScriptMinifier
