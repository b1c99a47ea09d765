import ScriptMinifier.Tree.Node

namespace ScriptMinifier

/-- A node without a place. -/
def Form.node (form : Form Node) : Node := ⟨form, default⟩

namespace Build

def number (x : Float) : Node := (Form.number x).node

def string (s : String) : Node := (Form.string s).node

def boolean (b : Bool) : Node := (Form.boolean b).node

def null : Node := Form.null.node

def undefined : Node := Form.undefined.node

def identifier (name : String) : Node := (Form.identifier name).node

def unary (op : UnaryOperator) (operand : Node) : Node := (Form.unary op operand).node

def not (operand : Node) : Node := unary .not operand

def binary (op : BinaryOperator) (left right : Node) : Node := (Form.binary op left right).node

def assign (target value : Node) : Node := (Form.assign .assign target value).node

def conditional (condition consequent alternative : Node) : Node :=
  (Form.conditional condition consequent alternative).node

def sequence (first second : Node) : Node := (Form.sequence first second).node

/-- A call of a function by its name. -/
def call (name : String) (args : List Node) : Node := (Form.call (identifier name) args).node

def member (subject : Node) (property : String) : Node := (Form.member subject property).node

def index (subject property : Node) : Node := (Form.index subject property).node

def statement (e : Node) : Node := (Form.expression e).node

def callStatement (name : String) (args : List Node) : Node := statement (call name args)

def block (body : List Node) : Node := (Form.block body).node

def empty : Node := Form.empty.node

def returning (value : Option Node) : Node := (Form.exit .returning value).node

def throwing (value : Node) : Node := (Form.exit .throwing (some value)).node

def leave (label : Option String) : Node := (Form.jump .leave label).node

def branch (condition body : Node) (alternative : Option Node) : Node :=
  (Form.branch condition body alternative).node

def whileDo (condition body : Node) : Node := (Form.loop .whileDo condition body).node

def doWhile (body condition : Node) : Node := (Form.loop .doWhile condition body).node

def var (bindings : List (String × Option Node)) : Node :=
  (Form.definitions .var (bindings.map fun (name, value) => ⟨name, value, default⟩) false).node

def declaration (name : String) (params : List String) (body : List Node) : Node :=
  (Form.declaration ⟨some name, params, body, false, false⟩).node

def function (params : List String) (body : List Node) : Node :=
  (Form.function ⟨none, params, body, false, false⟩).node

def program (body : List Node) : Node := (Form.program body).node

end Build

/-- Moves a node to a line and column, where it takes no room. -/
def Node.at (n : Node) (line column : UInt32) : Node := ⟨n.form, Position.span ⟨line, column, 0⟩⟩

end ScriptMinifier
