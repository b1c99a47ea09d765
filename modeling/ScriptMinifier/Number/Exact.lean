namespace ScriptMinifier

/-- A double as its parts. What depends on all digits of a double (its shortest decimal, its integer
part, remainders) is computed on these, in whole numbers. -/
inductive Exact where
  | nan
  | infinite (negative : Bool)
  /-- The number `± mantissa · 2 ^ exponent`; a mantissa of zero keeps its sign. -/
  | finite (negative : Bool) (mantissa : Nat) (exponent : Int)
deriving DecidableEq, Repr

namespace Exact

def ofFloat (x : Float) : Exact :=
  match x.toModel.unpack with
  | .notANumber => nan
  | .infinity s => infinite (s == .negative)
  | .zero s => finite (s == .negative) 0 0
  | .finite s m q _ => finite (s == .negative) m q

/-- The double nearest to the exact value, of two the one with the even mantissa. -/
def toFloat : Exact → Float
  | nan => 0.0 / 0.0
  | infinite negative => if negative then -1.0 / 0.0 else 1.0 / 0.0
  | finite negative m q =>
    let sign := if negative then .negative else .positive
    if m = 0 then .ofModel (.pack (.zero sign))
    else .ofModel (.pack (Float.Model.UnpackedFloat.round .binary64 sign m q))

/-- The integer part, toward zero, with the sign of the number. -/
def integral : Exact → Exact
  | finite negative m q => if 0 ≤ q then finite negative m q else finite negative (m >>> (-q).toNat) 0
  | x => x

/-- The remainder of `x` by `y` with the sign of `x`, exactly. -/
def remainder : Exact → Exact → Exact
  | finite negative m q, finite _ n r =>
    if n = 0 then nan
    else
      let e := min q r
      finite negative ((m <<< (q - e).toNat) % (n <<< (r - e).toNat)) e
  | finite negative m q, infinite _ => finite negative m q
  | _, _ => nan

end Exact

namespace Number

/-- The integer part, toward zero. -/
def truncate (x : Float) : Float := (Exact.ofFloat x).integral.toFloat

def remainder (x y : Float) : Float := ((Exact.ofFloat x).remainder (.ofFloat y)).toFloat

def isNegative (x : Float) : Bool :=
  match Exact.ofFloat x with
  | .finite negative .. | .infinite negative => negative
  | .nan => false

end Number

end ScriptMinifier
