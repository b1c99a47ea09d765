import ScriptMinifier.Number.Shortest
import ScriptMinifier.Text.Blank

namespace ScriptMinifier

namespace Number

def isDigit (c : Char) : Bool := '0' ≤ c && c ≤ '9'

/-- The value of a digit in radixes up to 36, letters of either case being the digits from ten. -/
def digitValue (c : Char) : Nat :=
  if isDigit c then c.toNat - '0'.toNat
  else if 'a' ≤ c && c ≤ 'z' then c.toNat - 'a'.toNat + 10
  else if 'A' ≤ c && c ≤ 'Z' then c.toNat - 'A'.toNat + 10
  else 36

/-- The whole number that decimal digits denote. -/
def natOfDigits (cs : List Char) : Nat := cs.foldl (fun n c => 10 * n + digitValue c) 0

/-- What follows `e` in a literal: an optional sign and one or more digits. -/
def exponent? (cs : List Char) : Option Int :=
  match cs with
  | '-' :: ds => if !ds.isEmpty && ds.all isDigit then some (-natOfDigits ds) else none
  | '+' :: ds => if !ds.isEmpty && ds.all isDigit then some (natOfDigits ds) else none
  | ds => if !ds.isEmpty && ds.all isDigit then some (natOfDigits ds) else none

/-- The digits after the point and what follows them; without a point there are none. -/
def fraction (cs : List Char) : List Char × List Char :=
  match cs with
  | '.' :: cs => (cs.takeWhile isDigit, cs.dropWhile isDigit)
  | cs => ([], cs)

end Number

namespace Decimal

open Number

/-- Reads an unsigned decimal literal, `digits [. digits] [e [sign] digits]` with at least one digit
before the exponent. -/
def parse? (cs : List Char) : Option Decimal :=
  let whole := cs.takeWhile isDigit
  let (part, rest) := fraction (cs.dropWhile isDigit)
  let value (e : Int) : Decimal := ⟨natOfDigits (whole ++ part), e - part.length⟩
  if whole.isEmpty && part.isEmpty then none
  else match rest with
    | [] => some (value 0)
    | c :: cs => if c = 'e' || c = 'E' then (exponent? cs).map value else none

/-- The double nearest to a decimal. -/
def toFloat (d : Decimal) : Float := Float.ofScientific d.digits (d.exponent < 0) d.exponent.natAbs

end Decimal

namespace Number

def nan : Float := 0.0 / 0.0

def infinity : Float := 1.0 / 0.0

/-- The value of digits in a radix, gathered from the left; a NaN when there is none or when one is
not a digit of the radix. -/
def ofRadix (radix : Nat) (cs : List Char) : Float :=
  if cs.isEmpty || cs.any fun c => radix ≤ digitValue c then nan
  else cs.foldl (fun x c => x * Float.ofNat radix + Float.ofNat (digitValue c)) 0.0

/-- The value of an unsigned literal; a NaN when it is none. -/
def ofUnsigned (cs : List Char) : Float :=
  if cs = "Infinity".toList then infinity
  else match Decimal.parse? cs with
    | some d => d.toFloat
    | none => nan

/-- The value of a text without blanks at its ends. -/
def ofTrimmed : List Char → Float
  | [] => 0.0
  | '0' :: 'x' :: cs | '0' :: 'X' :: cs => ofRadix 16 cs
  | '0' :: 'o' :: cs | '0' :: 'O' :: cs => ofRadix 8 cs
  | '0' :: 'b' :: cs | '0' :: 'B' :: cs => ofRadix 2 cs
  | '+' :: cs => ofUnsigned cs
  | '-' :: cs => -1.0 * ofUnsigned cs
  | cs => ofUnsigned cs

/-- The number a string converts to. -/
def ofString (s : String) : Float := ofTrimmed (Text.trim s.toList)

end Number

end ScriptMinifier
