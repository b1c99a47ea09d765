import ScriptMinifier.File.Names
import ScriptMinifier.Json.Reader
import ScriptMinifier.Tree.Node

/-!
Reading trees from JSON. A record is an object with its fields in any order, fields of other names
being skipped, or an array of its fields in their fixed order. Arrays and objects that make up the
tree may lie at most `Node.maxDepth` deep; a skipped value may be as deep as it likes.

Readers take the number of arrays and objects that may still be opened.
-/

namespace ScriptMinifier

namespace Json

def text? : Json → Option String
  | string s => s
  | _ => none

def bool? : Json → Option Bool
  | bool b => some b
  | _ => none

/-- A whole number below `bound`, written with digits only. -/
def nat? (bound : Nat) : Json → Option Nat
  | number cs =>
    let n := Number.natOfDigits cs
    if cs.all Number.isDigit && n < bound then some n else none
  | _ => none

/-- Any number that does not overflow. -/
def float? : Json → Option Float
  | number cs => do
    let (negative, digits) := match cs with
      | '-' :: digits => (true, digits)
      | digits => (false, digits)
    let x := (← Decimal.parse? digits).toFloat
    if x == Number.infinity then none
    else some (if negative then -x else x)
  | _ => none

/-- A value that may be missing or `null`. -/
def optional {α : Type} (read : Json → Option α) : Option Json → Option (Option α)
  | none | some null => some none
  | some v => (read v).map some

/-- The items of an array. -/
def list {α : Type} (read : Nat → Json → Option α) : Nat → Json → Option (List α)
  | depth + 1, array items => items.mapM (read depth)
  | _, _ => none

/-- The known fields of an object: a text for every key, none of the known ones twice. -/
def known (names : List String) (fields : List (Option String × Json)) :
    Option (List (String × Json)) := do
  let fields ← fields.mapM fun (k, v) => k.map (·, v)
  let fields := fields.filter fun (k, _) => names.contains k
  if (fields.map (·.1)).Nodup then some fields else none

/-- The fields of a record and the depth left inside it. Fields named in `mayLack` may be missing at
the end of an array. -/
def fields? (names : List String) (mayLack : List String) :
    Nat → Json → Option (Nat × List (String × Json))
  | depth + 1, array items =>
    if items.length = names.length || items.length = names.length + mayLack.length then
      some (depth, (names ++ mayLack).zip items)
    else none
  | depth + 1, object fields => (known (names ++ mayLack) fields).map (depth, ·)
  | _, _ => none

/-- A variant without a value: its name, or an object that gives the name `null`. -/
def unit? : Nat → Json → Option String
  | _, string s => s
  | _ + 1, object [(some name, null)] => some name
  | _, _ => none

def named? {α : Type} [Named α] (depth : Nat) (v : Json) : Option α := do
  Named.ofName? (← unit? depth v)

end Json

open Json

/-- A field that must be there. -/
def field {α : Type} (fields : List (String × Json)) (name : String) (read : Json → Option α) :
    Option α := do
  read (← fields.lookup name)

def Position.ofJson? (depth : Nat) (v : Json) : Option Position := do
  let (_, fs) ← fields? ["line", "col", "offset"] [] depth v
  let line ← field fs "line" (nat? UInt32.size)
  let column ← field fs "col" (nat? UInt32.size)
  let offset ← field fs "offset" (nat? UInt64.size)
  return ⟨.ofNat line, .ofNat column, .ofNat offset⟩

def Span.ofJson? (depth : Nat) (v : Json) : Option Span := do
  let (depth, fs) ← fields? ["start", "end"] [] depth v
  let start ← field fs "start" (Position.ofJson? depth)
  let stop ← field fs "end" (Position.ofJson? depth)
  return ⟨start, stop⟩

def Label.ofJson? (depth : Nat) (v : Json) : Option Label := do
  let (_, fs) ← fields? ["name", "references"] [] depth v
  let name ← field fs "name" text?
  let references ← field fs "references" (nat? UInt64.size)
  return ⟨name, .ofNat references⟩

section

variable {α : Type} (node : Nat → Json → Option α)

def Binding.ofJson? (depth : Nat) (v : Json) : Option (Binding α) := do
  let (depth, fs) ← fields? ["name", "value", "span"] [] depth v
  let name ← field fs "name" text?
  let value ← optional (node depth) (fs.lookup "value")
  let span ← field fs "span" (Span.ofJson? depth)
  return ⟨name, value, span⟩

/-- The hoisting mark, which is off when it is missing. -/
def mark? (fields : List (String × Json)) : Option Bool :=
  match fields.lookup "hoisted" with
  | none => some false
  | some v => bool? v

def Lambda.ofJson? (depth : Nat) (v : Json) : Option (Lambda α) := do
  let (depth, fs) ← fields? ["name", "params", "body", "uses_arguments"] ["hoisted"] depth v
  let name ← optional text? (fs.lookup "name")
  let params ← field fs "params" (list (fun _ => text?) depth)
  let body ← field fs "body" (list node depth)
  let usesArguments ← field fs "uses_arguments" bool?
  return ⟨name, params, body, usesArguments, ← mark? fs⟩

def Property.ofJson? (depth : Nat) (v : Json) : Option (Property α) := do
  let (depth, fs) ← fields? ["kind", "key", "value", "span"] [] depth v
  let kind ← field fs "kind" (named? depth)
  let key ← field fs "key" text?
  let value ← field fs "value" (node depth)
  let span ← field fs "span" (Span.ofJson? depth)
  return ⟨kind, key, value, span⟩

namespace Form

/-- The forms without a value. -/
def ofName? : String → Option (Form α)
  | "Empty" => some empty
  | "Debugger" => some debugger
  | "True" => some (boolean true)
  | "False" => some (boolean false)
  | "Null" => some null
  | "Undefined" => some undefined
  | "This" => some this
  | _ => none

/-- The forms that hold a single value. -/
def ofValue? (depth : Nat) (v : Json) : String → Option (Form α)
  | "SimpleStatement" => return expression (← node depth v)
  | "Block" => return block (← list node depth v)
  | "Finally" => return finally_ (← list node depth v)
  | "Defun" => return declaration (← Lambda.ofJson? node depth v)
  | "Toplevel" => return program (← list node depth v)
  | "Function" => return function (← Lambda.ofJson? node depth v)
  | "Str" => return string (← text? v)
  | "Num" => return number (← float? v)
  | "Ident" => return identifier (← text? v)
  | "Array" => return array (← list node depth v)
  | "Object" => return object (← list (Property.ofJson? node) depth v)
  | _ => none

/-- The forms that hold a record. -/
def ofRecord? (depth : Nat) (v : Json) : String → Option (Form α)
  | "Labeled" => do
    let (depth, fs) ← fields? ["label", "body"] [] depth v
    let label ← field fs "label" (Label.ofJson? depth)
    return labeled label (← field fs "body" (node depth))
  | "Exit" => do
    let (depth, fs) ← fields? ["kind", "value"] [] depth v
    let kind ← field fs "kind" (named? depth)
    return exit kind (← optional (node depth) (fs.lookup "value"))
  | "LoopControl" => do
    let (depth, fs) ← fields? ["kind", "label"] [] depth v
    let kind ← field fs "kind" (named? depth)
    return jump kind (← optional text? (fs.lookup "label"))
  | "If" => do
    let (depth, fs) ← fields? ["condition", "body", "alternative"] [] depth v
    let condition ← field fs "condition" (node depth)
    let body ← field fs "body" (node depth)
    return branch condition body (← optional (node depth) (fs.lookup "alternative"))
  | "DwLoop" => do
    let (depth, fs) ← fields? ["kind", "condition", "body"] [] depth v
    let kind ← field fs "kind" (named? depth)
    let condition ← field fs "condition" (node depth)
    return loop kind condition (← field fs "body" (node depth))
  | "For" => do
    let (depth, fs) ← fields? ["init", "condition", "step", "body"] [] depth v
    let init ← optional (node depth) (fs.lookup "init")
    let condition ← optional (node depth) (fs.lookup "condition")
    let step ← optional (node depth) (fs.lookup "step")
    return forLoop init condition step (← field fs "body" (node depth))
  | "ForIn" => do
    let (depth, fs) ← fields? ["init", "object", "body"] [] depth v
    let init ← field fs "init" (node depth)
    let subject ← field fs "object" (node depth)
    return forIn init subject (← field fs "body" (node depth))
  | "Switch" => do
    let (depth, fs) ← fields? ["expression", "cases"] [] depth v
    let subject ← field fs "expression" (node depth)
    return switch subject (← field fs "cases" (list node depth))
  | "Case" => do
    let (depth, fs) ← fields? ["expression", "body"] [] depth v
    let test ← optional (node depth) (fs.lookup "expression")
    return case test (← field fs "body" (list node depth))
  | "Try" => do
    let (depth, fs) ← fields? ["body", "handler", "finalizer"] [] depth v
    let body ← field fs "body" (list node depth)
    let handler ← optional (node depth) (fs.lookup "handler")
    return try_ body handler (← optional (node depth) (fs.lookup "finalizer"))
  | "Catch" => do
    let (depth, fs) ← fields? ["param", "body"] [] depth v
    let param ← field fs "param" text?
    return catch_ param (← field fs "body" (list node depth))
  | "With" => do
    let (depth, fs) ← fields? ["expression", "body"] [] depth v
    let subject ← field fs "expression" (node depth)
    return with_ subject (← field fs "body" (node depth))
  | "Definitions" => do
    let (depth, fs) ← fields? ["kind", "definitions"] ["hoisted"] depth v
    let kind ← field fs "kind" (named? depth)
    let bindings ← field fs "definitions" (list (Binding.ofJson? node) depth)
    return definitions kind bindings (← mark? fs)
  | "UnaryPrefix" => do
    let (depth, fs) ← fields? ["op", "expression"] [] depth v
    let op ← field fs "op" (named? depth)
    return unary op (← field fs "expression" (node depth))
  | "UnaryPostfix" => do
    let (depth, fs) ← fields? ["op", "expression"] [] depth v
    let op ← field fs "op" (named? depth)
    return update op (← field fs "expression" (node depth))
  | "Binary" => do
    let (depth, fs) ← fields? ["op", "left", "right"] [] depth v
    let op ← field fs "op" (named? depth)
    let left ← field fs "left" (node depth)
    return binary op left (← field fs "right" (node depth))
  | "Assign" => do
    let (depth, fs) ← fields? ["op", "left", "right"] [] depth v
    let op ← field fs "op" (named? depth)
    let target ← field fs "left" (node depth)
    return assign op target (← field fs "right" (node depth))
  | "Conditional" => do
    let (depth, fs) ← fields? ["condition", "consequent", "alternative"] [] depth v
    let condition ← field fs "condition" (node depth)
    let consequent ← field fs "consequent" (node depth)
    return conditional condition consequent (← field fs "alternative" (node depth))
  | "Seq" => do
    let (depth, fs) ← fields? ["first", "second"] [] depth v
    let first ← field fs "first" (node depth)
    return sequence first (← field fs "second" (node depth))
  | "Call" => do
    let (depth, fs) ← fields? ["expression", "args"] [] depth v
    let callee ← field fs "expression" (node depth)
    return call callee (← field fs "args" (list node depth))
  | "New" => do
    let (depth, fs) ← fields? ["expression", "args"] [] depth v
    let callee ← field fs "expression" (node depth)
    return construct callee (← field fs "args" (list node depth))
  | "Dot" => do
    let (depth, fs) ← fields? ["expression", "property"] [] depth v
    let subject ← field fs "expression" (node depth)
    return member subject (← field fs "property" text?)
  | "Sub" => do
    let (depth, fs) ← fields? ["expression", "property"] [] depth v
    let subject ← field fs "expression" (node depth)
    return index subject (← field fs "property" (node depth))
  | _ => none

/-- Reads one layer of syntax, given a reader of children. -/
def ofJson? : Nat → Json → Option (Form α)
  | _, .string s => do ofName? (← s)
  | depth + 1, .object [(some name, v)] =>
    match v, ofName? (α := α) name with
    | .null, some form => some form
    | _, _ => ofValue? node depth v name <|> ofRecord? node depth v name
  | _, _ => none

end Form

end

namespace Node

/-- How deep arrays and objects may lie in a tree file. -/
def maxDepth : Nat := 127

/-- Reads a node. Its children lie inside it, so they have less depth left than it has. -/
def ofJson? (depth : Nat) (v : Json) : Option Node := do
  let (inner, fs) ← fields? ["kind", "span"] [] depth v
  let form ← field fs "kind"
    (Form.ofJson? (fun d v => if d < depth then ofJson? d v else none) inner)
  let span ← field fs "span" (Span.ofJson? inner)
  return ⟨form, span⟩
termination_by depth

/-- Reads the text of a tree file. -/
def ofFileText? (text : String) : Option Node := do
  ofJson? maxDepth (← Json.parse? text.toList)

end Node

end ScriptMinifier
