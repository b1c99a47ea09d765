namespace ScriptMinifier.Text

/-- The control characters, Unicode category Cc. -/
def isControl (c : Char) : Bool := c.toNat < 0x20 || (0x7F ≤ c.toNat && c.toNat < 0xA0)

/-- The last `width` hexadecimal digits of `n`, the highest first. -/
def hex : Nat → Nat → List Char
  | 0, _ => []
  | width + 1, n => hex width (n / 16) ++ [Nat.digitChar (n % 16)]

@[simp] theorem length_hex (width n : Nat) : (hex width n).length = width := by
  induction width generalizing n with
  | zero => rfl
  | succ width ih => simp [hex, ih]

/-- An escape has a fixed length, so what follows it never changes it. -/
def escapeChar (c : Char) : List Char :=
  if c = '\\' then ['\\', '\\']
  else if c = '"' then ['\\', '"']
  else if c = '\n' then ['\\', 'n']
  else if c = '\r' then ['\\', 'r']
  else if c = '\t' then ['\\', 't']
  else if c.toNat = 0x2028 || c.toNat = 0x2029 then '\\' :: 'u' :: hex 4 c.toNat
  else if isControl c then '\\' :: 'x' :: hex 2 c.toNat
  else [c]

/-- The text of a string literal, without its quotes. -/
def escape (cs : List Char) : List Char := cs.flatMap escapeChar

/-- A string literal. -/
def quote (s : String) : List Char := '"' :: escape s.toList ++ ['"']

end ScriptMinifier.Text
