import ScriptMinifier.Number.Literal

namespace ScriptMinifier.Scan

open Number

def bytes (cs : List Char) : List UInt8 := cs.flatMap String.utf8EncodeChar

/-- The text before a byte offset, which must not be beyond the end or inside a character. -/
def before? : List Char → Nat → Option (List Char)
  | _, 0 => some []
  | [], _ + 1 => none
  | c :: cs, n + 1 =>
    if c.utf8Size ≤ n + 1 then (before? cs (n + 1 - c.utf8Size)).map (c :: ·) else none

/-- The text from a byte offset on, which must not be beyond the end or inside a character. -/
def from? : List Char → Nat → Option (List Char)
  | cs, 0 => some cs
  | [], _ + 1 => none
  | c :: cs, n + 1 => if c.utf8Size ≤ n + 1 then from? cs (n + 1 - c.utf8Size) else none

/-- Whether a byte is an ASCII character of a kind. -/
def isByte (p : Char → Bool) (b : UInt8) : Bool := b < 128 && p (.ofNat b.toNat)

/-- Whether there is a character of a kind at an offset. -/
def holds? (p : Char → Bool) (bs : List UInt8) (i : Nat) : Option Bool :=
  if i < bs.length then bs[i]?.map (isByte p) else some false

/-- The first offset from `i` on where there is no character of a kind. -/
def skip? (p : Char → Bool) (bs : List UInt8) (i : Nat) : Option Nat :=
  if i < bs.length then do
    if isByte p (← bs[i]?) then skip? p bs (i + 1) else some i
  else some i
termination_by bs.length - i

def isMark (c : Char) : Bool := c = 'e' || c = 'E'

def isSign (c : Char) : Bool := c = '+' || c = '-'

/-- Whether one or more digits and nothing else stand from an offset on. -/
def digits? (bs : List UInt8) (i : Nat) : Option Bool := do
  let stop ← skip? isDigit bs i
  some (stop != i && stop == bs.length)

/-- Whether an exponent or nothing stands from an offset on. -/
def exponent? (bs : List UInt8) (i : Nat) : Option Bool := do
  if ← holds? isMark bs i then
    if ← holds? isSign bs (i + 1) then digits? bs (i + 2) else digits? bs (i + 1)
  else some (i == bs.length)

/-- Whether the bytes are a decimal literal. -/
def decimal? (bs : List UInt8) : Option Bool := do
  let i ← skip? isDigit bs 0
  if ← holds? (· = '.') bs i then
    let j ← skip? isDigit bs (i + 1)
    if i + (j - (i + 1)) = 0 then some false else exponent? bs j
  else if i = 0 then some false else exponent? bs i

/-- The radix of a literal with a mark. -/
def radix? (cs : List Char) : Option Nat :=
  match before? cs 2 with
  | some ['0', 'x'] | some ['0', 'X'] => some 16
  | some ['0', 'o'] | some ['0', 'O'] => some 8
  | some ['0', 'b'] | some ['0', 'B'] => some 2
  | _ => none

/-- The value of an unsigned literal with a sign. -/
def signed? (sign : Float) (cs : List Char) : Option Float := do
  if cs = "Infinity".toList then some (sign * infinity)
  else if ← decimal? (bytes cs) then
    some (((Decimal.parse? cs).map fun d => sign * d.toFloat).getD nan)
  else some nan

/-- The value of a text without blanks at its ends, read by byte offsets in its UTF-8 form. There is
no answer if a read of a byte or a cut of the text fails. -/
def number? (cs : List Char) : Option Float :=
  if cs = [] then some 0.0
  else match radix? cs with
    | some radix => do some (ofRadix radix (← from? cs 2))
    | none => do
      let first ← (bytes cs)[0]?
      if isByte (· = '+') first then signed? 1.0 (← from? cs 1)
      else if isByte (· = '-') first then signed? (-1.0) (← from? cs 1)
      else signed? 1.0 cs

end ScriptMinifier.Scan
