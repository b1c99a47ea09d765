import ScriptMinifier.Json.Basic
import ScriptMinifier.Json.Token

namespace ScriptMinifier.Json

namespace Reader

/-- An array or object that waits for an item or for the value of a key; what it already has
stands in reverse. -/
inductive Open where
  | array (items : List Json)
  | object (fields : List (Option String × Json)) (key : Option String)

/-- What may come next. -/
inductive State where
  | value (stack : List Open)
  /-- Just inside an array: a value, or its end. -/
  | firstItem (stack : List Open)
  /-- Just inside an object: a key, or its end. -/
  | firstKey (stack : List Open)
  | key (fields : List (Option String × Json)) (stack : List Open)
  | colon (fields : List (Option String × Json)) (key : Option String) (stack : List Open)
  /-- After a whole value: a comma, or the end of what holds it. -/
  | after (value : Json) (stack : List Open)

/-- Reads a token that begins a value. -/
def beginValue (stack : List Open) : Token → Option State
  | .null => some (.after .null stack)
  | .bool b => some (.after (.bool b) stack)
  | .number lexeme => some (.after (.number lexeme) stack)
  | .string s => some (.after (.string s) stack)
  | .beginArray => some (.firstItem stack)
  | .beginObject => some (.firstKey stack)
  | _ => none

def step : State → Token → Option State
  | .value stack, t => beginValue stack t
  | .firstItem stack, .endArray => some (.after (.array []) stack)
  | .firstItem stack, t => beginValue (.array [] :: stack) t
  | .firstKey stack, .endObject => some (.after (.object []) stack)
  | .firstKey stack, .string s => some (.colon [] s stack)
  | .key fields stack, .string s => some (.colon fields s stack)
  | .colon fields key stack, .colon => some (.value (.object fields key :: stack))
  | .after v (.array items :: stack), .comma => some (.value (.array (v :: items) :: stack))
  | .after v (.array items :: stack), .endArray =>
    some (.after (.array (v :: items).reverse) stack)
  | .after v (.object fields key :: stack), .comma => some (.key ((key, v) :: fields) stack)
  | .after v (.object fields key :: stack), .endObject =>
    some (.after (.object ((key, v) :: fields).reverse) stack)
  | _, _ => none

end Reader

/-- The value that tokens spell. -/
def ofTokens? (tokens : List Token) : Option Json :=
  match tokens.foldlM Reader.step (.value []) with
  | some (.after v []) => some v
  | _ => none

/-- The value that a text spells. -/
def parse? (cs : List Char) : Option Json := do ofTokens? (← Token.scan cs)

end ScriptMinifier.Json
