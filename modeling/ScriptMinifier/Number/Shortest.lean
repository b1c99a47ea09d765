import ScriptMinifier.Number.Exact

/-!
The shortest decimal that reads back as a given double. The reals that round to the double form
an interval; the answer lies on the coarsest decimal grid that has a point in it, and is the
nearest such point.
-/

namespace ScriptMinifier

/-- Which of two equally near decimals is taken. -/
inductive TieRule where
  | up | even
deriving DecidableEq, Repr

/-- The number `digits · 10 ^ exponent`. -/
structure Decimal where
  digits : Nat
  exponent : Int
deriving DecidableEq, Repr

namespace Shortest

/-- The reals that round to `mantissa · 2 ^ exponent`, in quarters of its last place. Below a power
of two the doubles lie twice as dense, so the lower half is a quarter there. -/
structure Interval where
  low : Nat
  value : Nat
  high : Nat
  /-- The power of two that a quarter stands for. -/
  scale : Int
  /-- Both ends belong to the interval. -/
  closed : Bool
deriving DecidableEq, Repr

def interval (mantissa : Nat) (exponent : Int) : Interval where
  low := 4 * mantissa - if mantissa = 1 <<< 52 ∧ -1074 < exponent then 1 else 2
  value := 4 * mantissa
  high := 4 * mantissa + 2
  scale := exponent - 2
  closed := mantissa % 2 = 0

/-- `unit` quarters make `grid` steps of the decimal grid `10 ^ k`, as whole numbers. -/
def unit (scale k : Int) : Nat := Nat.pow 10 (-k).toNat <<< scale.toNat

def grid (scale k : Int) : Nat := Nat.pow 10 k.toNat <<< (-scale).toNat

/-- Whether `c · 10 ^ k` lies in the interval. -/
def Interval.contains (i : Interval) (c : Nat) (k : Int) : Bool :=
  let low := i.low * unit i.scale k
  let high := i.high * unit i.scale k
  let point := c * grid i.scale k
  if i.closed then low ≤ point && point ≤ high else low < point && point < high

/-- The nearest point of the grid `10 ^ k` in the interval, if there is one. -/
def Interval.nearest? (tie : TieRule) (i : Interval) (k : Int) : Option Nat :=
  let value := i.value * unit i.scale k
  let step := grid i.scale k
  let c := value / step
  match i.contains c k, i.contains (c + 1) k with
  | false, false => none
  | true, false => some c
  | false, true => some (c + 1)
  | true, true =>
    let below := value - c * step
    let above := (c + 1) * step - value
    if below < above then some c
    else if above < below then some (c + 1)
    else match tie with
      | .up => some (c + 1)
      | .even => some (if c % 2 = 0 then c else c + 1)

/-- Tries the grids from `10 ^ k` on, each ten times finer than the one before. -/
def Interval.search (tie : TieRule) (i : Interval) : Nat → Int → Decimal
  | 0, k => ⟨(i.nearest? tie k).getD 0, k⟩
  | steps + 1, k =>
    match i.nearest? tie k with
    | some c => ⟨c, k⟩
    | none => i.search tie steps (k - 1)

/-- A power of ten above `2 ^ bits`, as an exponent. -/
def ceiling (bits : Int) : Int := (if 0 ≤ bits then bits * 31 / 100 else bits * 3 / 10) + 1

end Shortest

open Shortest in
/-- The shortest decimal that reads back as `mantissa · 2 ^ exponent`. The search ends at the latest
where the value itself lies on the grid. -/
def Decimal.shortest (tie : TieRule) (mantissa : Nat) (exponent : Int) : Decimal :=
  let top := ceiling (mantissa.log2 + exponent + 2)
  (interval mantissa exponent).search tie (top - min exponent 0).toNat top

end ScriptMinifier
