import ScriptMinifier.Text.Identifier
import ScriptMinifier.Tree.Build

/-!
The grammar of expressions. `Derives s ts e` says that the tokens `ts` derive from the symbol `s` and
that `e` is the tree of the derivation. The grammar is stated by its own tables of operators and its
own chain of symbols, so that nothing of the printer goes into it. Functions, objects and regular
expressions have no production: each begins with a token that no other expression has. Nor have
arrays with gaps, which have no tree.
-/

namespace ScriptMinifier.Script

/-- Names and reserved words, punctuators, and the literals with their values. -/
inductive Token where
  | word (name : String)
  | mark (text : String)
  | number (value : Float)
  | string (text : String)
deriving DecidableEq

/-- The words that are no identifiers: keywords, those kept for later, and literals. -/
def keywords : List String :=
  ["break", "case", "catch", "continue", "debugger", "default", "delete", "do", "else", "finally",
   "for", "function", "if", "in", "instanceof", "new", "return", "switch", "this", "throw", "try",
   "typeof", "var", "void", "while", "with",
   "class", "const", "enum", "export", "extends", "import", "super",
   "null", "true", "false"]

/-- The words that are expressions by themselves. -/
def constants : List (Token × Node) :=
  [(.word "this", Form.this.node), (.word "null", Build.null), (.word "true", Build.boolean true),
   (.word "false", Build.boolean false)]

def prefixOperators : List (Token × UnaryOperator) :=
  [(.word "delete", .delete), (.word "void", .void), (.word "typeof", .typeOf),
   (.mark "++", .increment), (.mark "--", .decrement), (.mark "+", .plus), (.mark "-", .negate),
   (.mark "~", .bitNot), (.mark "!", .not)]

def suffixOperators : List (Token × UnaryOperator) :=
  [(.mark "++", .increment), (.mark "--", .decrement)]

/-- The rungs of binary operators, loosest first. -/
def rungs : List (List (Token × BinaryOperator)) :=
  [[(.mark "||", .or)],
   [(.mark "&&", .and)],
   [(.mark "|", .bitOr)],
   [(.mark "^", .bitXor)],
   [(.mark "&", .bitAnd)],
   [(.mark "==", .eq), (.mark "!=", .ne), (.mark "===", .strictEq), (.mark "!==", .strictNe)],
   [(.mark "<", .lt), (.mark ">", .gt), (.mark "<=", .le), (.mark ">=", .ge),
    (.word "instanceof", .instanceOf), (.word "in", .inside)],
   [(.mark "<<", .shl), (.mark ">>", .shr), (.mark ">>>", .ushr)],
   [(.mark "+", .add), (.mark "-", .sub)],
   [(.mark "*", .mul), (.mark "/", .div), (.mark "%", .mod)]]

def assignOperators : List (Token × AssignOperator) :=
  [(.mark "=", .assign), (.mark "*=", .mul), (.mark "/=", .div), (.mark "%=", .mod),
   (.mark "+=", .add), (.mark "-=", .sub), (.mark "<<=", .shl), (.mark ">>=", .shr),
   (.mark ">>>=", .ushr), (.mark "&=", .bitAnd), (.mark "^=", .bitXor), (.mark "|=", .bitOr)]

inductive Symbol where
  | expression | assignment | conditional
  /-- Operations of one rung of binary operators; the higher the rung, the tighter they bind. -/
  | operation (rung : Fin rungs.length)
  | unary | update | leftHandSide | call | construction | member | primary
deriving DecidableEq

/-- What the operands of the rung below may be without parentheses. -/
def Symbol.rung (k : Nat) : Symbol := if h : k < rungs.length then .operation ⟨k, h⟩ else .unary

/-- The symbols that stand alone on the right of a production. -/
def Symbol.units : Symbol → List Symbol
  | expression => [assignment]
  | assignment => [conditional]
  | conditional => [rung 0]
  | operation k => [rung (k + 1)]
  | unary => [update]
  | update => [leftHandSide]
  | leftHandSide => [construction, call]
  | construction => [member]
  | member => [primary]
  | call | primary => []

/-- Lists of tokens with commas between them. -/
def separated : List (List Token) → List Token
  | [] => []
  | [ts] => ts
  | ts :: tss => ts ++ .mark "," :: separated tss

/-- Tokens between brackets. -/
def bracketed (opening : String) (ts : List Token) (closing : String) : List Token :=
  .mark opening :: ts ++ [.mark closing]

/-- The symbols that properties and arguments are appended to. -/
def Symbol.IsChain (s : Symbol) : Prop := s = .member ∨ s = .call

inductive Derives : Symbol → List Token → Node → Prop
  | unit {s t ts e} : t ∈ s.units → Derives t ts e → Derives s ts e
  | constant {t e} : (t, e) ∈ constants → Derives .primary [t] e
  | identifier {name} : Text.isName name = true → name ∉ keywords →
    Derives .primary [.word name] (Build.identifier name)
  | number (x) : Derives .primary [.number x] (Build.number x)
  | string (s) : Derives .primary [.string s] (Build.string s)
  | array {items : List (List Token × Node)} : (∀ i ∈ items, Derives .assignment i.1 i.2) →
    Derives .primary (bracketed "[" (separated (items.map Prod.fst)) "]")
      (Form.array (items.map Prod.snd)).node
  /-- A comma after the last element adds none. -/
  | arrayComma {items : List (List Token × Node)} : items ≠ [] →
    (∀ i ∈ items, Derives .assignment i.1 i.2) →
    Derives .primary (bracketed "[" (separated (items.map Prod.fst) ++ [.mark ","]) "]")
      (Form.array (items.map Prod.snd)).node
  | parenthesized {ts e} : Derives .expression ts e → Derives .primary (bracketed "(" ts ")") e
  | member {s ts e name} : s.IsChain → Derives s ts e → Text.isName name = true →
    Derives s (ts ++ [.mark ".", .word name]) (Build.member e name)
  | index {s ts us e p} : s.IsChain → Derives s ts e → Derives .expression us p →
    Derives s (ts ++ bracketed "[" us "]") (Build.index e p)
  | construct {ts e} {args : List (List Token × Node)} : Derives .member ts e →
    (∀ a ∈ args, Derives .assignment a.1 a.2) →
    Derives .member (.word "new" :: ts ++ bracketed "(" (separated (args.map Prod.fst)) ")")
      (Form.construct e (args.map Prod.snd)).node
  | constructBare {ts e} : Derives .construction ts e →
    Derives .construction (.word "new" :: ts) (Form.construct e []).node
  | call {s ts e} {args : List (List Token × Node)} : s.IsChain → Derives s ts e →
    (∀ a ∈ args, Derives .assignment a.1 a.2) →
    Derives .call (ts ++ bracketed "(" (separated (args.map Prod.fst)) ")")
      (Form.call e (args.map Prod.snd)).node
  | update {ts e t op} : Derives .leftHandSide ts e → (t, op) ∈ suffixOperators →
    Derives .update (ts ++ [t]) (Form.update op e).node
  | unary {ts e t op} : (t, op) ∈ prefixOperators → Derives .unary ts e →
    Derives .unary (t :: ts) (Build.unary op e)
  | operation {k ts us l r t op} : Derives (.operation k) ts l → (t, op) ∈ rungs[k] →
    Derives (.rung (k + 1)) us r → Derives (.operation k) (ts ++ t :: us) (Build.binary op l r)
  | conditional {ts us vs c a b} : Derives (.rung 0) ts c → Derives .assignment us a →
    Derives .assignment vs b →
    Derives .conditional (ts ++ .mark "?" :: us ++ .mark ":" :: vs) (Build.conditional c a b)
  | assign {ts us e v t op} : Derives .leftHandSide ts e → (t, op) ∈ assignOperators →
    Derives .assignment us v → Derives .assignment (ts ++ t :: us) (Form.assign op e v).node
  | sequence {ts us a b} : Derives .expression ts a → Derives .assignment us b →
    Derives .expression (ts ++ .mark "," :: us) (Build.sequence a b)

end ScriptMinifier.Script
