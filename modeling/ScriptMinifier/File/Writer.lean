import ScriptMinifier.File.Names
import ScriptMinifier.Json.Writer
import ScriptMinifier.Number.Layout
import ScriptMinifier.Tree.Node

namespace ScriptMinifier

open Json (record ofString)

def Position.toJson (p : Position) : Json :=
  record [("line", .ofNat p.line.toNat), ("col", .ofNat p.column.toNat),
    ("offset", .ofNat p.offset.toNat)]

def Span.toJson (s : Span) : Json :=
  record [("start", s.start.toJson), ("end", s.stop.toJson)]

namespace Json

def ofOption : Option Json → Json
  | some v => v
  | none => null

def named {α : Type} [Named α] (a : α) : Json := ofString (Named.name a)

/-- A variant that holds one value: an object with the variant's name as its only key. -/
def variant (name : String) (payload : Json) : Json := record [(name, payload)]

/-- What a number holds that no literal denotes is lost. -/
def ofFloat (x : Float) : Json :=
  match Number.fileText? x with
  | some cs => number cs
  | none => null

end Json

def Label.toJson (l : Label) : Json :=
  record [("name", ofString l.name), ("references", .ofNat l.references.toNat)]

def Binding.toJson (b : Binding Json) : Json :=
  record [("name", ofString b.name), ("value", .ofOption b.value), ("span", b.span.toJson)]

def Lambda.toJson (l : Lambda Json) : Json :=
  record [("name", .ofOption (l.name.map ofString)), ("params", .array (l.params.map ofString)),
    ("body", .array l.body), ("uses_arguments", .bool l.usesArguments),
    ("hoisted", .bool l.hoisted)]

def Property.toJson (p : Property Json) : Json :=
  record [("kind", .named p.kind), ("key", ofString p.key), ("value", p.value),
    ("span", p.span.toJson)]

open Json in
/-- One layer of syntax, its children being written already. -/
def Form.toJson : Form Json → Json
  | .expression e => variant "SimpleStatement" e
  | .block body => variant "Block" (.array body)
  | .empty => ofString "Empty"
  | .debugger => ofString "Debugger"
  | .labeled label body => variant "Labeled" (record [("label", label.toJson), ("body", body)])
  | .exit kind value => variant "Exit" (record [("kind", named kind), ("value", ofOption value)])
  | .jump kind label =>
    variant "LoopControl" (record [("kind", named kind), ("label", ofOption (label.map ofString))])
  | .branch condition body alternative =>
    variant "If" (record [("condition", condition), ("body", body),
      ("alternative", ofOption alternative)])
  | .loop kind condition body =>
    variant "DwLoop" (record [("kind", named kind), ("condition", condition), ("body", body)])
  | .forLoop init condition step body =>
    variant "For" (record [("init", ofOption init), ("condition", ofOption condition),
      ("step", ofOption step), ("body", body)])
  | .forIn init subject body =>
    variant "ForIn" (record [("init", init), ("object", subject), ("body", body)])
  | .switch subject cases =>
    variant "Switch" (record [("expression", subject), ("cases", .array cases)])
  | .case test body =>
    variant "Case" (record [("expression", ofOption test), ("body", .array body)])
  | .try_ body handler finalizer =>
    variant "Try" (record [("body", .array body), ("handler", ofOption handler),
      ("finalizer", ofOption finalizer)])
  | .catch_ param body =>
    variant "Catch" (record [("param", ofString param), ("body", .array body)])
  | .finally_ body => variant "Finally" (.array body)
  | .with_ subject body => variant "With" (record [("expression", subject), ("body", body)])
  | .definitions kind bindings hoisted =>
    variant "Definitions" (record [("kind", named kind),
      ("definitions", .array (bindings.map Binding.toJson)), ("hoisted", .bool hoisted)])
  | .declaration lambda => variant "Defun" lambda.toJson
  | .program body => variant "Toplevel" (.array body)
  | .function lambda => variant "Function" lambda.toJson
  | .string s => variant "Str" (ofString s)
  | .number x => variant "Num" (ofFloat x)
  | .boolean b => ofString (if b then "True" else "False")
  | .null => ofString "Null"
  | .undefined => ofString "Undefined"
  | .identifier name => variant "Ident" (ofString name)
  | .this => ofString "This"
  | .unary op operand => variant "UnaryPrefix" (record [("op", named op), ("expression", operand)])
  | .update op operand =>
    variant "UnaryPostfix" (record [("op", named op), ("expression", operand)])
  | .binary op left right =>
    variant "Binary" (record [("op", named op), ("left", left), ("right", right)])
  | .assign op target value =>
    variant "Assign" (record [("op", named op), ("left", target), ("right", value)])
  | .conditional condition consequent alternative =>
    variant "Conditional" (record [("condition", condition), ("consequent", consequent),
      ("alternative", alternative)])
  | .sequence first second => variant "Seq" (record [("first", first), ("second", second)])
  | .call callee args => variant "Call" (record [("expression", callee), ("args", .array args)])
  | .construct callee args => variant "New" (record [("expression", callee), ("args", .array args)])
  | .member subject property =>
    variant "Dot" (record [("expression", subject), ("property", ofString property)])
  | .index subject property =>
    variant "Sub" (record [("expression", subject), ("property", property)])
  | .array elements => variant "Array" (.array elements)
  | .object properties => variant "Object" (.array (properties.map Property.toJson))

namespace Node

/-- Every record is an object with all its fields, in one fixed order. -/
def toJson (n : Node) : Json :=
  record [("kind", (n.form.attach.map fun c => toJson c.1).toJson), ("span", n.span.toJson)]
termination_by sizeOf n
decreasing_by exact sizeOf_lt_of_mem c.2

theorem toJson_eq (n : Node) :
    n.toJson = record [("kind", (n.form.map toJson).toJson), ("span", n.span.toJson)] := by
  have h := Form.map_map toJson Subtype.val n.form.attach
  rw [Form.attach_map_val] at h
  rw [toJson, h]

/-- The text of a tree file. -/
def fileText (n : Node) : String := String.ofList n.toJson.render

end Node

end ScriptMinifier
