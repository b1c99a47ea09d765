namespace ScriptMinifier

/-- A place in the source text. Line and column are what a diagnostic shows. -/
structure Position where
  line : UInt32
  column : UInt32
  /-- Bytes from the start of the text. -/
  offset : UInt64
deriving DecidableEq, Repr, Inhabited

/-- The place as diagnostics write it: `line,column`. -/
def Position.text (p : Position) : String :=
  toString p.line.toNat ++ "," ++ toString p.column.toNat

/-- A stretch of source text. -/
structure Span where
  start : Position
  stop : Position
deriving DecidableEq, Repr, Inhabited

/-- The empty span at one place. -/
def Position.span (p : Position) : Span := ⟨p, p⟩

end ScriptMinifier
