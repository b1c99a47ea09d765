import ScriptMinifier.Number.Exact

namespace ScriptMinifier.Number

def two31 : Float := 2147483648.0

def two32 : Float := 4294967296.0

/-- The remainder that is not negative. -/
def modulo (x y : Float) : Float :=
  let r := remainder x y
  if r < 0.0 then r + y.abs else r

/-- The integer part modulo `2 ^ 32`; `0` for what has none. -/
def residue (x : Float) : Float :=
  if !x.isFinite || x == 0.0 then 0.0 else modulo (truncate x) two32

/-- The integer part modulo `2 ^ 32`, where the upper half stands for negative numbers. -/
def signedResidue (x : Float) : Float :=
  let r := residue x
  if two31 ≤ r then r - two32 else r

def toUInt32 (x : Float) : UInt32 := (residue x).toUInt32

/-- The conversion at the end cuts a fraction off and holds what is out of range at the nearest
bound. -/
def toInt32 (x : Float) : Int32 := (signedResidue x).toModel.toInt32

/-- An integer as a number. -/
def ofInt32 (n : Int32) : Float := .ofModel (.ofInt32 n)

end ScriptMinifier.Number
