import ScriptMinifier.Primitive.Basic
import ScriptMinifier.Text.Units

namespace ScriptMinifier.Primitive

/-- `===`. -/
def strictEq : Primitive → Primitive → Bool
  | undefined, undefined | null, null => true
  | boolean a, boolean b => a = b
  | number a, number b => a == b
  | string a, string b => a = b
  | _, _ => false

/-- Counts an operand that `==` still has to convert to a number. -/
def pending : Primitive → Nat
  | boolean _ => 1
  | _ => 0

/-- `==`: `null` and `undefined` are equal to each other and to nothing else, a boolean is converted
to a number and then compared again, and of a number and a string the string is converted. -/
def looseEq : Primitive → Primitive → Bool
  | undefined, undefined | undefined, null | null, undefined | null, null => true
  | undefined, _ | null, _ | _, undefined | _, null => false
  | number x, string s => x == Number.ofString s
  | string s, number x => Number.ofString s == x
  | boolean a, w => looseEq (number (boolean a).toNumber) w
  | v, boolean b => looseEq v (number (boolean b).toNumber)
  | v, w => strictEq v w
termination_by v w => v.pending + w.pending
decreasing_by all_goals simp [pending]

/-- `<`; no answer when a number is missing from the comparison. -/
def less? : Primitive → Primitive → Option Bool
  | string a, string b => some (Text.unitsBefore (Text.units a) (Text.units b))
  | v, w => if v.toNumber.isNaN || w.toNumber.isNaN then none else some (v.toNumber < w.toNumber)

end ScriptMinifier.Primitive
