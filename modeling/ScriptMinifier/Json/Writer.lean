import ScriptMinifier.Json.Basic
import ScriptMinifier.Text.Quoted

namespace ScriptMinifier.Json

/-- Quotes, backslashes and the controls below the space are escaped, and nothing else. -/
def escapeChar (c : Char) : List Char :=
  if c = '"' then ['\\', '"']
  else if c = '\\' then ['\\', '\\']
  else if c.toNat = 8 then ['\\', 'b']
  else if c.toNat = 12 then ['\\', 'f']
  else if c = '\n' then ['\\', 'n']
  else if c = '\r' then ['\\', 'r']
  else if c = '\t' then ['\\', 't']
  else if c.toNat < 0x20 then '\\' :: 'u' :: Text.hex 4 c.toNat
  else [c]

/-- A string in quotes; a broken text is written as the replacement character. -/
def quote (s : Option String) : List Char :=
  '"' :: (s.getD "\ufffd").toList.flatMap escapeChar ++ ['"']

mutual

/-- The text of a value, without blanks. -/
def render : Json → List Char
  | null => "null".toList
  | bool b => if b then "true".toList else "false".toList
  | number lexeme => lexeme
  | string s => quote s
  | array items => '[' :: renderItems items ++ [']']
  | object fields => '{' :: renderFields fields ++ ['}']

def renderItems : List Json → List Char
  | [] => []
  | [v] => render v
  | v :: vs => render v ++ ',' :: renderItems vs

def renderFields : List (Option String × Json) → List Char
  | [] => []
  | [(k, v)] => quote k ++ ':' :: render v
  | (k, v) :: fields => quote k ++ ':' :: render v ++ ',' :: renderFields fields

end

end ScriptMinifier.Json
