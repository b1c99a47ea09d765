import ScriptMinifier.Number.Layout
import ScriptMinifier.Text.Identifier
import ScriptMinifier.Text.Quoted
import ScriptMinifier.Tree.Kind

namespace ScriptMinifier

def parenthesized (t : List Char) : List Char := '(' :: t ++ [')']

def braced (t : List Char) : List Char := '{' :: t ++ ['}']

/-- A text after a keyword: a blank keeps the two apart where they would read as one token. -/
def spaced (t : List Char) : List Char :=
  match t with
  | [] => []
  | c :: _ => if Text.isNamePart c || c = '.' then ' ' :: t else t

/-- A keyword after a text. -/
def withWord (t : List Char) (word : String) : List Char :=
  match t.getLast? with
  | some c => if Text.isNamePart c then t ++ ' ' :: word.toList else t ++ word.toList
  | none => word.toList

/-- Texts with commas between them. -/
def commaSeparated : List (List Char) → List Char
  | [] => []
  | [t] => t
  | t :: ts => t ++ ',' :: commaSeparated ts

def DeclarationKind.text : DeclarationKind → List Char
  | var => "var ".toList
  | const => "const ".toList

def ExitKind.text : ExitKind → List Char
  | returning => "return".toList
  | throwing => "throw".toList

def JumpKind.text : JumpKind → List Char
  | leave => "break".toList
  | next => "continue".toList

/-- A `+` or `-` would run into a sign that follows. -/
def UnaryOperator.clashes (op : UnaryOperator) (operand : List Char) : Bool :=
  match op with
  | negate | decrement => operand.head? = some '-'
  | plus | increment => operand.head? = some '+'
  | _ => false

def BinaryOperator.clashes (op : BinaryOperator) (right : List Char) : Bool :=
  match op with
  | sub => right.head? = some '-'
  | add => right.head? = some '+'
  | _ => false

def UnaryOperator.join (op : UnaryOperator) (operand : List Char) : List Char :=
  op.text.toList ++
    if op.isWord then spaced operand
    else if op.clashes operand then ' ' :: operand else operand

def BinaryOperator.join (op : BinaryOperator) (left right : List Char) : List Char :=
  if op.isWord then withWord left op.text ++ spaced right
  else left ++ op.text.toList ++ if op.clashes right then ' ' :: right else right

/-- A parameter list. -/
def parameters (params : List String) : List Char :=
  parenthesized (commaSeparated (params.map String.toList))

/-- A function up to its body. -/
def functionHead (name : Option String) (params : List String) : List Char :=
  "function".toList ++ (match name with
    | some name => ' ' :: name.toList
    | none => []) ++ parameters params

/-- A key of an object literal: bare when it is a name, else a string. -/
def propertyKey (key : String) : List Char :=
  if Text.isName key then key.toList else Text.quote key

namespace Precedence

def sequence : Nat := 1
def assign : Nat := 2
def conditional : Nat := 3
def or : Nat := 4
def unary : Nat := 14
def update : Nat := 15
def call : Nat := 16
def primary : Nat := 17

end Precedence

namespace Node

/-- How tightly an expression binds; numbers that are written with an operator bind like it. -/
def precedence (n : Node) : Nat :=
  match n.form with
  | .sequence .. => Precedence.sequence
  | .assign .. => Precedence.assign
  | .conditional .. => Precedence.conditional
  | .binary op .. => op.precedence
  | .unary .. | .undefined => Precedence.unary
  | .update .. => Precedence.update
  | .call .. | .construct .. | .member .. | .index .. => Precedence.call
  | .number x =>
    match Exact.ofFloat x with
    | .nan | .infinite _ => BinaryOperator.precedence .div
    | .finite negative .. => if negative then Precedence.unary else Precedence.primary
  | _ => Precedence.primary

/-- The text `t` of `n` where an operand binding at least as tightly as `least` is asked for. -/
def enclosed (least : Nat) (n : Node) (t : List Char) : List Char :=
  if n.precedence < least then parenthesized t else t

/-- The text `t` of `n` where a statement is asked for. -/
def asStatement (n : Node) (t : List Char) : List Char := if n.isStatement then t else t ++ [';']

/-- A statement that would take over an `else` written after it. -/
def endsOpen : Node → Bool
  | ⟨.branch _ _ none, _⟩ => true
  | ⟨.branch _ _ (some alternative), _⟩ => endsOpen alternative
  | ⟨.loop .whileDo _ body, _⟩ | ⟨.forLoop _ _ _ body, _⟩ | ⟨.forIn _ _ body, _⟩
  | ⟨.with_ _ body, _⟩ | ⟨.labeled _ body, _⟩ => endsOpen body
  | _ => false

/-- Whether a constructor to be called has a call along its chain of properties. -/
def callInside : Node → Bool
  | ⟨.call .., _⟩ => true
  | ⟨.member e _, _⟩ | ⟨.index e _, _⟩ => callInside e
  | _ => false

def isNumber (n : Node) : Bool :=
  match n.form with
  | .number _ => true
  | _ => false

/-- The text `t` of `n` in the head of a `for`: a declaration leaves its semicolon to the head, and
an `in` must not stand bare there. -/
def inHead (n : Node) (t : List Char) : List Char :=
  match n.form with
  | .definitions .. => t.dropLast
  | .binary .inside .. => parenthesized t
  | _ => t

/-- An expression statement must not begin like a declaration or a block. -/
def isGuarded (t : List Char) : Bool := "function".toList.isPrefixOf t || t.head? = some '{'

mutual

/-- The shortest text of a node by itself: no blank, parenthesis or brace that the grammar does not
ask for. -/
def text : Node → List Char
  | ⟨.expression e, _⟩ =>
    let t := text e
    (if isGuarded t then parenthesized t else t) ++ [';']
  | ⟨.block body, _⟩ => braced (statements body)
  | ⟨.program body, _⟩ => statements body
  | ⟨.empty, _⟩ => [';']
  | ⟨.debugger, _⟩ => "debugger;".toList
  | ⟨.labeled label body, _⟩ => label.name.toList ++ ':' :: asStatement body (text body)
  | ⟨.exit kind none, _⟩ => kind.text ++ [';']
  | ⟨.exit kind (some value), _⟩ => kind.text ++ spaced (text value) ++ [';']
  | ⟨.jump kind none, _⟩ => kind.text ++ [';']
  | ⟨.jump kind (some label), _⟩ => kind.text ++ ' ' :: label.toList ++ [';']
  | ⟨.branch condition body none, _⟩ =>
    "if(".toList ++ text condition ++ ')' :: asStatement body (text body)
  | ⟨.branch condition body (some alternative), _⟩ =>
    let t := asStatement body (text body)
    "if(".toList ++ text condition ++ ')' :: (if body.endsOpen then braced t else t) ++
      "else".toList ++ spaced (asStatement alternative (text alternative))
  | ⟨.loop .whileDo condition body, _⟩ =>
    "while(".toList ++ text condition ++ ')' :: asStatement body (text body)
  | ⟨.loop .doWhile condition body, _⟩ =>
    "do".toList ++ spaced (asStatement body (text body)) ++ "while(".toList ++ text condition ++
      ");".toList
  | ⟨.forLoop init condition step body, _⟩ =>
    "for(".toList ++
      (match init with
        | some init => inHead init (text init)
        | none => []) ++ ';' ::
      (match condition with
        | some condition => text condition
        | none => []) ++ ';' ::
      (match step with
        | some step => text step
        | none => []) ++ ')' :: asStatement body (text body)
  | ⟨.forIn init subject body, _⟩ =>
    withWord ("for(".toList ++ inHead init (text init)) "in" ++ spaced (text subject) ++
      ')' :: asStatement body (text body)
  | ⟨.switch subject cases, _⟩ =>
    "switch(".toList ++ text subject ++ ')' :: braced (statements cases)
  | ⟨.case (some test) body, _⟩ => "case".toList ++ spaced (text test) ++ ':' :: statements body
  | ⟨.case none body, _⟩ => "default:".toList ++ statements body
  | ⟨.try_ body handler finalizer, _⟩ =>
    "try".toList ++ braced (statements body) ++
      (match handler with
        | some handler => asStatement handler (text handler)
        | none => []) ++
      (match finalizer with
        | some finalizer => asStatement finalizer (text finalizer)
        | none => [])
  | ⟨.catch_ param body, _⟩ =>
    "catch(".toList ++ param.toList ++ ')' :: braced (statements body)
  | ⟨.finally_ body, _⟩ => "finally".toList ++ braced (statements body)
  | ⟨.with_ subject body, _⟩ =>
    "with(".toList ++ text subject ++ ')' :: asStatement body (text body)
  | ⟨.definitions kind bindings _, _⟩ =>
    kind.text ++ commaSeparated (bindingTexts bindings) ++ [';']
  | ⟨.declaration ⟨name, params, body, _, _⟩, _⟩ | ⟨.function ⟨name, params, body, _, _⟩, _⟩ =>
    functionHead name params ++ braced (statements body)
  | ⟨.string s, _⟩ => Text.quote s
  | ⟨.number x, _⟩ => Number.sourceText x
  | ⟨.boolean true, _⟩ => "true".toList
  | ⟨.boolean false, _⟩ => "false".toList
  | ⟨.null, _⟩ => "null".toList
  | ⟨.undefined, _⟩ => "void 0".toList
  | ⟨.identifier name, _⟩ => name.toList
  | ⟨.this, _⟩ => "this".toList
  | ⟨.unary op operand, _⟩ => op.join (enclosed Precedence.unary operand (text operand))
  | ⟨.update op operand, _⟩ => enclosed Precedence.call operand (text operand) ++ op.text.toList
  | ⟨.binary op left right, _⟩ =>
    op.join (enclosed op.precedence left (text left))
      (enclosed (op.precedence + 1) right (text right))
  | ⟨.assign op target value, _⟩ =>
    enclosed Precedence.call target (text target) ++ op.text.toList ++
      enclosed Precedence.assign value (text value)
  | ⟨.conditional condition consequent alternative, _⟩ =>
    enclosed Precedence.or condition (text condition) ++
      '?' :: enclosed Precedence.assign consequent (text consequent) ++
      ':' :: enclosed Precedence.assign alternative (text alternative)
  | ⟨.sequence first second, _⟩ => text first ++ ',' :: text second
  | ⟨.call callee args, _⟩ =>
    enclosed Precedence.call callee (text callee) ++ parenthesized (commaSeparated (items args))
  | ⟨.construct callee args, _⟩ =>
    "new ".toList ++
      (if callee.callInside then parenthesized (text callee)
        else enclosed Precedence.call callee (text callee)) ++
      parenthesized (commaSeparated (items args))
  | ⟨.member subject property, _⟩ =>
    (if subject.isNumber then parenthesized (text subject)
      else enclosed Precedence.call subject (text subject)) ++ '.' :: property.toList
  | ⟨.index subject property, _⟩ =>
    enclosed Precedence.call subject (text subject) ++ '[' :: text property ++ [']']
  | ⟨.array elements, _⟩ => '[' :: commaSeparated (items elements) ++ [']']
  | ⟨.object properties, _⟩ => braced (commaSeparated (propertyTexts properties))

/-- Statements, one after the other. -/
def statements : List Node → List Char
  | [] => []
  | n :: ns => asStatement n (text n) ++ statements ns

/-- Expressions that commas will separate. -/
def items : List Node → List (List Char)
  | [] => []
  | n :: ns => enclosed Precedence.assign n (text n) :: items ns

/-- The bindings of a declaration. -/
def bindingTexts : List (Binding Node) → List (List Char)
  | [] => []
  | ⟨name, none, _⟩ :: bs => name.toList :: bindingTexts bs
  | ⟨name, some value, _⟩ :: bs =>
    (name.toList ++ '=' :: enclosed Precedence.assign value (text value)) :: bindingTexts bs

/-- The properties of an object literal. -/
def propertyTexts : List (Property Node) → List (List Char)
  | [] => []
  | ⟨.getter, key, ⟨.function ⟨_, params, body, _, _⟩, _⟩, _⟩ :: ps =>
    ("get ".toList ++ propertyKey key ++ parameters params ++ braced (statements body)) ::
      propertyTexts ps
  | ⟨.setter, key, ⟨.function ⟨_, params, body, _, _⟩, _⟩, _⟩ :: ps =>
    ("set ".toList ++ propertyKey key ++ parameters params ++ braced (statements body)) ::
      propertyTexts ps
  | ⟨_, key, value, _⟩ :: ps =>
    (propertyKey key ++ ':' :: enclosed Precedence.assign value (text value)) :: propertyTexts ps

end

/-- The text of a tree. -/
def print (n : Node) : String := String.ofList n.text

end Node

end ScriptMinifier
