import ScriptMinifier.Printed
import ScriptMinifier.ResultType
import ScriptMinifier.Session

namespace ScriptMinifier

namespace Rule

open Pass (warn attempt)

/-- With `booleans` on, `true` is written `!0` and `false` is written `!1`. -/
def shortenBoolean (o : Options) (n : Node) : Node :=
  match n with
  | ⟨.boolean b, span⟩ =>
    if o.on .booleans then ⟨.unary .not ⟨.number (if b then 0.0 else 1.0), span⟩, span⟩ else n
  | n => n

def truthLiteral (o : Options) (b : Bool) (span : Span) : Node :=
  shortenBoolean o ⟨.boolean b, span⟩

/-- The first of two nodes, unless the second has a shorter text, counted in bytes. -/
def shorter (a b : Node) : Node := if b.print.utf8ByteSize < a.print.utf8ByteSize then b else a

/-- Folds an expression and encodes the outcome. -/
def fold (o : Options) (n : Node) : Pass Node := do
  return shortenBoolean o (← attempt (o.foldConstant n)).1

/-- The value of an expression that folds. -/
def value? (o : Options) (n : Node) : Pass (Option Primitive) := do
  return (← attempt (o.foldConstant n)).2

/-- Says that a condition is constant. -/
def warnConstant (o : Options) (truth : Bool) (p : Position) : Pass Unit :=
  warn o (if truth then .conditionAlwaysTrue else .conditionAlwaysFalse) p

/-- A constant condition selects its branch; any other is negated if that makes the text shorter. -/
def conditional (o : Options) (condition consequent alternative : Node) (span : Span) :
    Pass Node := do
  if o.on .conditionals then
    let (condition, v?) ← attempt (o.foldConstant condition)
    match v? with
    | some v =>
      warnConstant o v.truthy span.start
      return if v.truthy then consequent else alternative
    | none =>
      let opposite ← attempt (condition.negate (o.on .comparisons))
      return shorter ⟨.conditional condition consequent alternative, span⟩
        ⟨.conditional opposite alternative consequent, span⟩
  else return ⟨.conditional condition consequent alternative, span⟩

/-- Whether both operands surely are strings, or both surely booleans: then `==` answers what `===`
does. -/
def sameType (left right : Node) : Bool :=
  (left.yieldsString && right.yieldsString) || (left.yieldsBoolean && right.yieldsBoolean)

def loosen (o : Options) (op : BinaryOperator) (left right : Node) : BinaryOperator :=
  match op with
  | .strictEq => if o.on .comparisons && sameType left right then .eq else op
  | .strictNe => if o.on .comparisons && sameType left right then .ne else op
  | op => op

/-- What `&&`, `||` and `+` come to where only truth matters and an operand is constant. -/
def truthShortcut (o : Options) (op : BinaryOperator) (left right : Node) (span : Span) :
    Pass (Option Node) := do
  if op ≠ .and ∧ op ≠ .or ∧ op ≠ .add then return none
  let v? ← value? o left
  let w? ← value? o right
  let decided (finding : Finding) (b : Bool) : Pass (Option Node) := do
    warn o finding span.start
    return some (truthLiteral o b span)
  let other : Option Node :=
    if v?.isSome then some right else if w?.isSome then some left else none
  let isText (v : Primitive) : Bool := v.truthy && v.typeName = "string"
  match op with
  | .and =>
    if v?.any (!·.truthy) || w?.any (!·.truthy) then decided .andAlwaysFalse false
    else return other
  | .or =>
    if v?.any (·.truthy) || w?.any (·.truthy) then decided .orAlwaysTrue true
    else return other
  | _ =>
    if v?.any isText || w?.any isText then decided .plusAlwaysTrue true
    else return none

def binary (o : Options) (op : BinaryOperator) (left right : Node) (span : Span) : Pass Node := do
  let shortcut? ← if o.on .booleans && (← Pass.context).onlyTruthMatters then
      truthShortcut o op left right span
    else pure none
  match shortcut? with
  | some n => return shortenBoolean o n
  | none => fold o ⟨.binary (loosen o op left right) left right, span⟩

/-- Where only truth matters, `!!a` is `a` and a `typeof` is always true. -/
def unary (o : Options) (op : UnaryOperator) (operand : Node) (span : Span) : Pass Node := do
  if o.on .booleans && (← Pass.context).onlyTruthMatters then
    match op, operand with
    | .not, ⟨.unary .not inner, _⟩ => return inner
    | .typeOf, _ =>
      warn o .booleanAlwaysTrue span.start
      return truthLiteral o true span
    | _, _ => fold o ⟨.unary op operand, span⟩
  else fold o ⟨.unary op operand, span⟩

/-- A loop that never stops by its condition is a bare `for`, and a loop that never starts is
nothing. -/
def loop (o : Options) (kind : LoopKind) (condition body : Node) (span : Span) : Pass Node := do
  let v? ← if o.on .loops then value? o condition else pure none
  match v?, kind with
  | some v, kind =>
    if v.truthy then return ⟨.forLoop none none none body, span⟩
    else if kind = .whileDo then
      warn o .unreachableCode span.start
      return .empty span
    else return ⟨.loop kind condition body, span⟩
  | none, kind => return ⟨.loop kind condition body, span⟩

/-- An `if` whose branches are expressions, or exits of one kind with values, is an expression or
such an exit. -/
def branches (o : Options) (condition body : Node) (alternative : Option Node) (span : Span) :
    Pass Node := do
  match body, alternative with
  | ⟨.expression yes, _⟩, some ⟨.expression no, _⟩ =>
    return ⟨.expression (← conditional o condition yes no span), span⟩
  | ⟨.expression yes, _⟩, none | ⟨.expression yes, _⟩, some ⟨.empty, _⟩ =>
    return ⟨.expression (← binary o .and condition yes span), span⟩
  | ⟨.empty, _⟩, some ⟨.expression no, _⟩ =>
    return ⟨.expression (← binary o .or condition no span), span⟩
  | ⟨.exit kind (some yes), _⟩, some ⟨.exit kind' (some no), _⟩ =>
    if kind = kind' then
      return ⟨.exit kind (some (← conditional o condition yes no span)), span⟩
    else return ⟨.branch condition body alternative, span⟩
  | body, alternative => return ⟨.branch condition body alternative, span⟩

/-- A negated condition is freed of its `!` by swapping the branches. -/
def swapNegated (condition body : Node) (alternative : Option Node) (span : Span) :
    Node × Node × Option Node :=
  match condition with
  | ⟨.unary .not operand, _⟩ => (operand, alternative.getD (.empty span), some body)
  | condition => (condition, body, alternative)

def branch (o : Options) (condition body : Node) (alternative : Option Node) (span : Span) :
    Pass Node := do
  if o.on .conditionals then
    let (condition, v?) ← attempt (o.foldConstant condition)
    match v? with
    | some v =>
      warnConstant o v.truthy condition.span.start
      return if v.truthy then body else alternative.getD (.empty span)
    | none =>
      let (condition, body, alternative) := swapNegated condition body alternative span
      branches o condition body alternative span
  else return ⟨.branch condition body alternative, span⟩

/-- An access by a string that is an identifier is an access by name. -/
def index (o : Options) (subject property : Node) (span : Span) : Node :=
  match property with
  | ⟨.string name, _⟩ =>
    if o.on .properties && Text.isIdentifier name then ⟨.member subject name, span⟩
    else ⟨.index subject property, span⟩
  | property => ⟨.index subject property, span⟩

/-- What a form becomes whose children are reduced. -/
def simplify (o : Options) (form : Form Node) (span : Span) : Pass Node :=
  match form with
  | .debugger => return if o.on .dropDebugger then .empty span else ⟨.debugger, span⟩
  | .labeled label body => return if label.references = 0 then body else ⟨.labeled label body, span⟩
  | .block [n] => return n
  | .branch condition body alternative => branch o condition body alternative span
  | .loop kind condition body => loop o kind condition body span
  | .forLoop init condition step body =>
    return ⟨.forLoop (init.filter (!·.isEmpty)) condition step body, span⟩
  | .boolean b => return truthLiteral o b span
  | .unary op operand => unary o op operand span
  | .binary op left right => binary o op left right span
  | .conditional condition consequent alternative =>
    conditional o condition consequent alternative span
  | .index subject property => return index o subject property span
  | form => return ⟨form, span⟩

/-- What a hoisted declaration becomes. As a statement it makes its assignments; the head of a loop
holds them bare, and the head of a `for ... in` without assignments names the variable. -/
def placeAssignments (parent? : Option Enclosure) (bindings : List (Binding Node))
    (assignments? : Option Node) (span : Span) : Node :=
  match parent?, assignments? with
  | some ⟨.forIn, .init⟩, some n => n
  | some ⟨.forIn, .init⟩, none =>
    match bindings with
    | [] => .empty span
    | b :: _ => ⟨.identifier b.name, b.span⟩
  | some ⟨.forLoop, .init⟩, some n => n
  | _, some n => ⟨.expression n, span⟩
  | _, none => .empty span

end Rule

end ScriptMinifier
