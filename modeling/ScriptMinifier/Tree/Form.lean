import ScriptMinifier.Operator
import ScriptMinifier.Source

namespace ScriptMinifier

inductive ExitKind where
  | returning | throwing
deriving DecidableEq, Repr

inductive JumpKind where
  | leave | next
deriving DecidableEq, Repr

/-- Loops made of one condition and one body. -/
inductive LoopKind where
  | whileDo | doWhile
deriving DecidableEq, Repr

inductive DeclarationKind where
  | var | const
deriving DecidableEq, Repr

inductive PropertyKind where
  | value | getter | setter
deriving DecidableEq, Repr

/-- A statement label and how many jumps name it. -/
structure Label where
  name : String
  references : UInt64
deriving DecidableEq, Repr

/-- One name of a declaration, with its initializer if it has one. -/
structure Binding (α : Type) where
  name : String
  value : Option α
  span : Span
deriving DecidableEq, Repr

structure Lambda (α : Type) where
  name : Option String
  params : List String
  body : List α
  /-- Whether the body refers to `arguments`. -/
  usesArguments : Bool
  /-- Set on a declaration that a copy at the top of its scope stands in for. -/
  hoisted : Bool
deriving DecidableEq, Repr

structure Property (α : Type) where
  kind : PropertyKind
  key : String
  value : α
  span : Span
deriving DecidableEq, Repr

/-- One layer of syntax: a statement or expression whose children have type `α`. -/
inductive Form (α : Type) where
  -- statements, clauses and whole programs
  | expression (value : α)
  | block (body : List α)
  | empty
  | debugger
  | labeled (label : Label) (body : α)
  | exit (kind : ExitKind) (value : Option α)
  | jump (kind : JumpKind) (label : Option String)
  | branch (condition body : α) (alternative : Option α)
  | loop (kind : LoopKind) (condition body : α)
  | forLoop (init condition step : Option α) (body : α)
  | forIn (init subject body : α)
  | switch (subject : α) (cases : List α)
  | case (test : Option α) (body : List α)
  | try_ (body : List α) (handler finalizer : Option α)
  | catch_ (param : String) (body : List α)
  | finally_ (body : List α)
  | with_ (subject body : α)
  | definitions (kind : DeclarationKind) (bindings : List (Binding α)) (hoisted : Bool)
  | declaration (lambda : Lambda α)
  | program (body : List α)
  -- expressions
  | function (lambda : Lambda α)
  | string (text : String)
  | number (value : Float)
  | boolean (value : Bool)
  | null
  | undefined
  | identifier (name : String)
  | this
  | unary (op : UnaryOperator) (operand : α)
  | update (op : UnaryOperator) (operand : α)
  | binary (op : BinaryOperator) (left right : α)
  | assign (op : AssignOperator) (target value : α)
  | conditional (condition consequent alternative : α)
  | sequence (first second : α)
  | call (callee : α) (args : List α)
  | construct (callee : α) (args : List α)
  | member (subject : α) (property : String)
  | index (subject property : α)
  | array (elements : List α)
  | object (properties : List (Property α))
deriving DecidableEq, Repr

/-- Where a child stands in its parent, as far as the rules care. -/
inductive Role where
  | condition | init | other
deriving DecidableEq, Repr

namespace Binding

variable {α β : Type} {m : Type → Type} [Monad m]

def map (f : α → β) (b : Binding α) : Binding β := { b with value := b.value.map f }

def mapM (f : α → m β) (b : Binding α) : m (Binding β) := do
  return { b with value := ← b.value.mapM f }

/-- The binding without its initializer. -/
def bare (b : Binding α) : Binding α := { b with value := none }

@[simp] theorem bare_name (b : Binding α) : b.bare.name = b.name := rfl

@[simp] theorem bare_value (b : Binding α) : b.bare.value = none := rfl

@[simp] theorem bare_bare (b : Binding α) : b.bare.bare = b.bare := rfl

end Binding

namespace Property

variable {α β : Type} {m : Type → Type} [Monad m]

def map (f : α → β) (p : Property α) : Property β := { p with value := f p.value }

def mapM (f : α → m β) (p : Property α) : m (Property β) := do
  return { p with value := ← f p.value }

end Property

namespace Form

variable {α β : Type}

/-- The direct children in source order. -/
def children : Form α → List α
  | empty | debugger | jump .. | string _ | number _ | boolean _ | null | undefined
  | identifier _ | this => []
  | expression e | labeled _ e | unary _ e | update _ e | member e _ => [e]
  | block body | catch_ _ body | finally_ body | program body | array body => body
  | exit _ value => value.toList
  | branch c body alternative => c :: body :: alternative.toList
  | loop .whileDo c body => [c, body]
  | loop .doWhile c body => [body, c]
  | forLoop init c step body => init.toList ++ c.toList ++ step.toList ++ [body]
  | forIn a b c | conditional a b c => [a, b, c]
  | switch e es | call e es | construct e es => e :: es
  | case test body => test.toList ++ body
  | try_ body handler finalizer => body ++ handler.toList ++ finalizer.toList
  | with_ a b | binary _ a b | assign _ a b | sequence a b | index a b => [a, b]
  | definitions _ bindings _ => bindings.filterMap (·.value)
  | declaration f | function f => f.body
  | object ps => ps.map (·.value)

def map (f : α → β) : Form α → Form β
  | expression e => expression (f e)
  | block body => block (body.map f)
  | empty => empty
  | debugger => debugger
  | labeled l body => labeled l (f body)
  | exit k value => exit k (value.map f)
  | jump k l => jump k l
  | branch c body alternative => branch (f c) (f body) (alternative.map f)
  | loop k c body => loop k (f c) (f body)
  | forLoop init c step body => forLoop (init.map f) (c.map f) (step.map f) (f body)
  | forIn init e body => forIn (f init) (f e) (f body)
  | switch e cases => switch (f e) (cases.map f)
  | case test body => case (test.map f) (body.map f)
  | try_ body handler finalizer => try_ (body.map f) (handler.map f) (finalizer.map f)
  | catch_ p body => catch_ p (body.map f)
  | finally_ body => finally_ (body.map f)
  | with_ e body => with_ (f e) (f body)
  | definitions k bindings h => definitions k (bindings.map (·.map f)) h
  | declaration l => declaration { l with body := l.body.map f }
  | program body => program (body.map f)
  | function l => function { l with body := l.body.map f }
  | string s => string s
  | number x => number x
  | boolean b => boolean b
  | null => null
  | undefined => undefined
  | identifier s => identifier s
  | this => this
  | unary op e => unary op (f e)
  | update op e => update op (f e)
  | binary op l r => binary op (f l) (f r)
  | assign op l r => assign op (f l) (f r)
  | conditional c a b => conditional (f c) (f a) (f b)
  | sequence a b => sequence (f a) (f b)
  | call e args => call (f e) (args.map f)
  | construct e args => construct (f e) (args.map f)
  | member e p => member (f e) p
  | index e p => index (f e) (f p)
  | array es => array (es.map f)
  | object ps => object (ps.map (·.map f))

theorem map_id (form : Form α) : form.map id = form := by
  cases form <;> simp [map, Binding.map, Property.map]

/-- Visits the children in evaluation order, telling each its role. A statement list is handed
over whole, so that the visitor may change its length. -/
def traverse {m : Type → Type} [Monad m] (child : Role → α → m β)
    (statements : List α → m (List β)) : Form α → m (Form β)
  | expression e => return expression (← child .other e)
  | block body => return block (← statements body)
  | empty => return empty
  | debugger => return debugger
  | labeled l body => return labeled l (← child .other body)
  | exit k value => return exit k (← value.mapM (child .other))
  | jump k l => return jump k l
  | branch c body alternative => do
    let c ← child .condition c
    let body ← child .other body
    return branch c body (← alternative.mapM (child .other))
  | loop k c body => do
    let c ← child .condition c
    return loop k c (← child .other body)
  | forLoop init c step body => do
    let init ← init.mapM (child .init)
    let c ← c.mapM (child .condition)
    let step ← step.mapM (child .other)
    return forLoop init c step (← child .other body)
  | forIn init e body => do
    let init ← child .init init
    let e ← child .other e
    return forIn init e (← child .other body)
  | switch e cases => do
    let e ← child .other e
    return switch e (← cases.mapM (child .other))
  | case test body => do
    let test ← test.mapM (child .other)
    return case test (← statements body)
  | try_ body handler finalizer => do
    let body ← statements body
    let handler ← handler.mapM (child .other)
    return try_ body handler (← finalizer.mapM (child .other))
  | catch_ p body => return catch_ p (← statements body)
  | finally_ body => return finally_ (← statements body)
  | with_ e body => do
    let e ← child .other e
    return with_ e (← child .other body)
  | definitions k bindings h =>
    return definitions k (← bindings.mapM (·.mapM (child .other))) h
  | declaration l => return declaration { l with body := ← statements l.body }
  | program body => return program (← statements body)
  | function l => return function { l with body := ← statements l.body }
  | string s => return string s
  | number x => return number x
  | boolean b => return boolean b
  | null => return null
  | undefined => return undefined
  | identifier s => return identifier s
  | this => return this
  | unary op e => return unary op (← child .other e)
  | update op e => return update op (← child .other e)
  | binary op l r => do
    let l ← child .other l
    return binary op l (← child .other r)
  | assign op l r => do
    let l ← child .other l
    return assign op l (← child .other r)
  | conditional c a b => do
    let c ← child .condition c
    let a ← child .other a
    return conditional c a (← child .other b)
  | sequence a b => do
    let a ← child .other a
    return sequence a (← child .other b)
  | call e args => do
    let e ← child .other e
    return call e (← args.mapM (child .other))
  | construct e args => do
    let e ← child .other e
    return construct e (← args.mapM (child .other))
  | member e p => return member (← child .other e) p
  | index e p => do
    let e ← child .other e
    return index e (← child .other p)
  | array es => return array (← es.mapM (child .other))
  | object ps => return object (← ps.mapM (·.mapM (child .other)))

/-- Visits the children in source order. The body of `do ... while` stands before its condition,
which is the only place where source order is not evaluation order. -/
def mapM {m : Type → Type} [Monad m] (f : α → m β) : Form α → m (Form β)
  | loop .doWhile c body => do
    let body ← f body
    return loop .doWhile (← f c) body
  | form => form.traverse (fun _ => f) (·.mapM f)

end Form

end ScriptMinifier
