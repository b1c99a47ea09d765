import ScriptMinifier.Text.Letter

namespace ScriptMinifier.Text

def isNameStart (c : Char) : Bool := isLetter c || c = '_' || c = '$'

def isNamePart (c : Char) : Bool := isLetterOrNumber c || c = '_' || c = '$'

/-- Names, reserved words included: what may follow the dot of a property access. -/
def isName (s : String) : Bool :=
  match s.toList with
  | [] => false
  | c :: cs => isNameStart c && cs.all isNamePart

def reservedWords : List String :=
  ["break", "case", "catch", "class", "const", "continue", "debugger", "default", "delete", "do",
   "else", "enum", "export", "extends", "false", "finally", "for", "function", "if", "import",
   "in", "instanceof", "new", "null", "return", "super", "switch", "this", "throw", "true",
   "try", "typeof", "var", "void", "while", "with"]

/-- Names that are not reserved. -/
def isIdentifier (s : String) : Bool := isName s && !reservedWords.contains s

end ScriptMinifier.Text
