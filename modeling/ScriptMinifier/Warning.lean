import ScriptMinifier.Source

namespace ScriptMinifier

/-- What a rule can find odd. -/
inductive Finding where
  | conditionAlwaysTrue
  | conditionAlwaysFalse
  | unreachableCode
  | unreachableDeclarations
  | andAlwaysFalse
  | orAlwaysTrue
  | plusAlwaysTrue
  | booleanAlwaysTrue
deriving DecidableEq, Repr

/-- Line and column stand in braces, written here as escapes. -/
def Finding.template : Finding → String
  | conditionAlwaysTrue => "Condition always true [\x7bline\x7d,\x7bcol\x7d]"
  | conditionAlwaysFalse => "Condition always false [\x7bline\x7d,\x7bcol\x7d]"
  | unreachableCode => "Unreachable code [\x7bline\x7d,\x7bcol\x7d]"
  | unreachableDeclarations => "Declarations in unreachable code! [\x7bline\x7d,\x7bcol\x7d]"
  | andAlwaysFalse => "Boolean && always false [\x7bline\x7d,\x7bcol\x7d]"
  | orAlwaysTrue => "Boolean || always true [\x7bline\x7d,\x7bcol\x7d]"
  | plusAlwaysTrue => "+ in boolean context always true [\x7bline\x7d,\x7bcol\x7d]"
  | booleanAlwaysTrue => "Boolean expression always true [\x7bline\x7d,\x7bcol\x7d]"

structure Warning where
  template : String
  position : Position
deriving DecidableEq, Repr

namespace Warning

/-- Puts the numbers of a position in the places kept for them. -/
def fill (p : Position) : List Char → List Char
  | '{' :: 'l' :: 'i' :: 'n' :: 'e' :: '}' :: cs => Nat.toDigits 10 p.line.toNat ++ fill p cs
  | '{' :: 'c' :: 'o' :: 'l' :: '}' :: cs => Nat.toDigits 10 p.column.toNat ++ fill p cs
  | c :: cs => c :: fill p cs
  | [] => []

def message (w : Warning) : String := String.ofList (fill w.position w.template.toList)

end Warning

end ScriptMinifier
