import ScriptMinifier.Tree.Kind

namespace ScriptMinifier

def BinaryOperator.isTest : BinaryOperator → Bool
  | inside | instanceOf | eq | ne | strictEq | strictNe | lt | le | gt | ge => true
  | _ => false

namespace Node

/-- The result surely is a boolean; `false` means that nothing is known. -/
def yieldsBoolean : Node → Bool
  | ⟨.boolean _, _⟩ => true
  | ⟨.unary op _, _⟩ => op = .not || op = .delete
  | ⟨.binary op left right, _⟩ =>
    op.isTest || (op.isLogical && yieldsBoolean left && yieldsBoolean right)
  | ⟨.conditional _ consequent alternative, _⟩ =>
    yieldsBoolean consequent && yieldsBoolean alternative
  | ⟨.assign .assign _ value, _⟩ => yieldsBoolean value
  | ⟨.sequence _ second, _⟩ => yieldsBoolean second
  | _ => false

/-- The result surely is a string; `false` means that nothing is known. -/
def yieldsString : Node → Bool
  | ⟨.string _, _⟩ => true
  | ⟨.unary op _, _⟩ => op = .typeOf
  | ⟨.binary .add left right, _⟩ => yieldsString left || yieldsString right
  | ⟨.assign .assign _ value, _⟩ => yieldsString value
  | _ => false

end Node

end ScriptMinifier
