namespace ScriptMinifier.Text

/-- The UTF-16 code units of a character: itself, or a pair of surrogates above `0xFFFF`. -/
def charUnits (c : Char) : List Nat :=
  let n := c.toNat
  if n < 0x10000 then [n] else [0xD800 + (n - 0x10000) / 0x400, 0xDC00 + (n - 0x10000) % 0x400]

def units (s : String) : List Nat := s.toList.flatMap charUnits

/-- Whether one list of units comes before another in the order of dictionaries. -/
def unitsBefore : List Nat → List Nat → Bool
  | _, [] => false
  | [], _ :: _ => true
  | a :: as, b :: bs => a < b || (a = b && unitsBefore as bs)

end ScriptMinifier.Text
