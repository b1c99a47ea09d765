import ScriptMinifier.Number.Shortest

namespace ScriptMinifier

/-- How a positive number is written. -/
structure Layout where
  /-- The point is written in place when it stands after at least `lowest` digits (a negative
  count means zeros after the point) and after at most `highest`. -/
  lowest : Int
  highest : Int
  /-- A whole number written without exponent ends in `.0`. -/
  fraction : Bool
  tie : TieRule

namespace Layout

/-- Numbers as the scripting language converts them to text. -/
def script : Layout := ⟨-5, 21, false, .up⟩

/-- Numbers as tree files hold them. -/
def file : Layout := ⟨-4, 16, true, .even⟩

/-- Writes `0.d₁d₂… · 10 ^ point`. -/
def place (layout : Layout) (digits : List Char) (point : Int) : List Char :=
  if layout.lowest ≤ point ∧ point ≤ layout.highest then
    if point ≤ 0 then ['0', '.'] ++ List.replicate (-point).toNat '0' ++ digits
    else if digits.length ≤ point then
      digits ++ List.replicate (point.toNat - digits.length) '0' ++
        if layout.fraction then ['.', '0'] else []
    else digits.take point.toNat ++ '.' :: digits.drop point.toNat
  else
    let e := point - 1
    digits.take 1 ++ (if digits.length ≤ 1 then [] else '.' :: digits.drop 1) ++
      ['e', if e < 0 then '-' else '+'] ++ Nat.toDigits 10 e.natAbs

/-- Writes `mantissa · 2 ^ exponent`, for a positive mantissa. -/
def positive (layout : Layout) (mantissa : Nat) (exponent : Int) : List Char :=
  let d := Decimal.shortest layout.tie mantissa exponent
  let digits := Nat.toDigits 10 d.digits
  layout.place digits (d.exponent + digits.length)

end Layout

namespace Number

/-- A number as text: both zeros are `0`. -/
def text (x : Float) : List Char :=
  match Exact.ofFloat x with
  | .nan => "NaN".toList
  | .infinite negative => if negative then "-Infinity".toList else "Infinity".toList
  | .finite negative m q =>
    if m = 0 then ['0']
    else (if negative then ['-'] else []) ++ Layout.script.positive m q

/-- A number as a tree file holds it; a file has no way to write a NaN or an infinity. -/
def fileText? (x : Float) : Option (List Char) :=
  match Exact.ofFloat x with
  | .nan | .infinite _ => none
  | .finite negative m q =>
    some ((if negative then ['-'] else []) ++
      if m = 0 then ['0', '.', '0'] else Layout.file.positive m q)

/-- A number as an expression: what no literal denotes is written as a quotient, and a negative
zero keeps its sign. -/
def sourceText (x : Float) : List Char :=
  match Exact.ofFloat x with
  | .nan => "0/0".toList
  | .infinite negative => if negative then "-1/0".toList else "1/0".toList
  | .finite negative m _ => if m = 0 then (if negative then ['-', '0'] else ['0']) else text x

end Number

end ScriptMinifier
