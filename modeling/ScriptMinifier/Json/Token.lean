import ScriptMinifier.Number.Literal

namespace ScriptMinifier.Json

inductive Token where
  | beginArray | endArray | beginObject | endObject | colon | comma
  | null
  | bool (value : Bool)
  | number (lexeme : List Char)
  | string (text : Option String)
deriving DecidableEq, Repr

namespace Token

/-- What the scanner is in the midst of; what it has read of a token stands in reverse. -/
inductive Mode where
  | blank
  | word (seen : List Char)
  | number (seen : List Char)
  | string (codes : List Nat)
  | escape (codes : List Nat)
  /-- In an escape of four hexadecimal digits, of which `left` are still to come. -/
  | hex (codes : List Nat) (left value : Nat)

def isSpace (c : Char) : Bool := c = ' ' || c = '\t' || c = '\n' || c = '\r'

/-- Joins surrogate pairs; `none` when one half stands alone. -/
def decodeText : List Nat → Option (List Char)
  | [] => some []
  | n :: rest =>
    if n < 0xD800 || 0xE000 ≤ n then (decodeText rest).map (Char.ofNat n :: ·)
    else match rest with
      | [] => none
      | m :: rest =>
        if n < 0xDC00 && 0xDC00 ≤ m && m < 0xE000 then
          (decodeText rest).map (Char.ofNat (0x10000 + (n - 0xD800) * 0x400 + (m - 0xDC00)) :: ·)
        else none

/-- A sign, digits without a leading zero, a fraction and an exponent, all but the digits
optional. -/
def isNumber (cs : List Char) : Bool :=
  let cs := match cs with
    | '-' :: cs => cs
    | cs => cs
  let whole := cs.takeWhile Number.isDigit
  let rest := cs.dropWhile Number.isDigit
  let leading := match whole with
    | [] => false
    | c :: cs => c ≠ '0' || cs.isEmpty
  let rest? := match rest with
    | '.' :: cs =>
      if (cs.takeWhile Number.isDigit).isEmpty then none else some (cs.dropWhile Number.isDigit)
    | cs => some cs
  leading && match rest? with
    | none => false
    | some [] => true
    | some (c :: cs) => (c = 'e' || c = 'E') && (Number.exponent? cs).isSome

def ofWord (cs : List Char) : Option Token :=
  if cs = "true".toList then some (bool true)
  else if cs = "false".toList then some (bool false)
  else if cs = "null".toList then some null
  else none

def ofNumber (cs : List Char) : Option Token := if isNumber cs then some (number cs) else none

def isNumberPart (c : Char) : Bool :=
  Number.isDigit c || c = '-' || c = '+' || c = '.' || c = 'e' || c = 'E'

def isLowercase (c : Char) : Bool := 'a' ≤ c && c ≤ 'z'

/-- The character after a backslash stands for a code point; `u` announces four digits. -/
def simpleEscape : Char → Option Nat
  | '"' => some 0x22
  | '\\' => some 0x5C
  | '/' => some 0x2F
  | 'b' => some 8
  | 'f' => some 12
  | 'n' => some 10
  | 'r' => some 13
  | 't' => some 9
  | _ => none

/-- The tokens read so far, the last one first, and the mode. -/
structure State where
  tokens : List Token
  mode : Mode

/-- Reads a character that begins a token. -/
def start (tokens : List Token) (c : Char) : Option State :=
  match c with
  | '[' => some ⟨beginArray :: tokens, .blank⟩
  | ']' => some ⟨endArray :: tokens, .blank⟩
  | '{' => some ⟨beginObject :: tokens, .blank⟩
  | '}' => some ⟨endObject :: tokens, .blank⟩
  | ':' => some ⟨colon :: tokens, .blank⟩
  | ',' => some ⟨comma :: tokens, .blank⟩
  | '"' => some ⟨tokens, .string []⟩
  | c =>
    if isSpace c then some ⟨tokens, .blank⟩
    else if isLowercase c then some ⟨tokens, .word [c]⟩
    else if Number.isDigit c || c = '-' then some ⟨tokens, .number [c]⟩
    else none

def step (s : State) (c : Char) : Option State :=
  match s.mode with
  | .blank => start s.tokens c
  | .word seen =>
    if isLowercase c then some { s with mode := .word (c :: seen) }
    else do start ((← ofWord seen.reverse) :: s.tokens) c
  | .number seen =>
    if isNumberPart c then some { s with mode := .number (c :: seen) }
    else do start ((← ofNumber seen.reverse) :: s.tokens) c
  | .string codes =>
    if c = '"' then
      some ⟨string ((decodeText codes.reverse).map String.ofList) :: s.tokens, .blank⟩
    else if c = '\\' then some { s with mode := .escape codes }
    else if c.toNat < 0x20 then none
    else some { s with mode := .string (c.toNat :: codes) }
  | .escape codes =>
    if c = 'u' then some { s with mode := .hex codes 4 0 }
    else do return { s with mode := .string ((← simpleEscape c) :: codes) }
  | .hex codes left value =>
    let digit := Number.digitValue c
    if digit < 16 then
      let value := 16 * value + digit
      let mode := if left ≤ 1 then .string (value :: codes) else .hex codes (left - 1) value
      some { s with mode }
    else none

def finish (s : State) : Option (List Token) :=
  match s.mode with
  | .blank => some s.tokens.reverse
  | .word seen => do return ((← ofWord seen.reverse) :: s.tokens).reverse
  | .number seen => do return ((← ofNumber seen.reverse) :: s.tokens).reverse
  | .string _ | .escape _ | .hex .. => none

/-- The tokens of a text. -/
def scan (cs : List Char) : Option (List Token) := do
  finish (← cs.foldlM step ⟨[], .blank⟩)

end Token

end ScriptMinifier.Json
