namespace ScriptMinifier

/-- A file may repeat a key, and numbers keep the text they were written with, so reading decides
nothing that the shape of a tree has to decide. A text is `none` when it holds half of a surrogate
pair, which no `String` does. -/
inductive Json where
  | null
  | bool (value : Bool)
  | number (lexeme : List Char)
  | string (text : Option String)
  | array (items : List Json)
  | object (fields : List (Option String × Json))

namespace Json

instance : Inhabited Json := ⟨null⟩

def ofString (s : String) : Json := string (some s)

def ofNat (n : Nat) : Json := number (Nat.toDigits 10 n)

def record (fields : List (String × Json)) : Json := object (fields.map fun (k, v) => (some k, v))

/-- The value of `key` in an object. -/
def get? (key : String) : Json → Option Json
  | object fields => fields.lookup (some key)
  | _ => none

end Json

end ScriptMinifier
