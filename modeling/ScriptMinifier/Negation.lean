import ScriptMinifier.Fault

namespace ScriptMinifier

/-- The operator that answers the opposite. `&&` and `||` are opposite to each other over negated
operands. Orders are turned around only when asked for, for neither `a < b` nor `a >= b` holds of
what is not a number. -/
def BinaryOperator.opposite? (comparisons : Bool) : BinaryOperator → Option BinaryOperator
  | le => if comparisons then some gt else none
  | lt => if comparisons then some ge else none
  | ge => if comparisons then some lt else none
  | gt => if comparisons then some le else none
  | eq => some ne
  | ne => some eq
  | strictEq => some strictNe
  | strictNe => some strictEq
  | and => some or
  | or => some and
  | _ => none

namespace Node

/-- Puts `!` in front. -/
def not (n : Node) : Node := ⟨.unary .not n, n.span⟩

def negate (comparisons : Bool) : Node → Except Fault Node
  | ⟨.unary .not operand, _⟩ => .ok operand
  | ⟨.sequence first second, span⟩ => do
    return ⟨.sequence first (← negate comparisons second), span⟩
  | ⟨.conditional condition consequent alternative, span⟩ => do
    let consequent ← negate comparisons consequent
    let alternative ← negate comparisons alternative
    return ⟨.conditional condition consequent alternative, span⟩
  | ⟨.binary op left right, span⟩ =>
    match op.opposite? comparisons with
    | none => .ok (not ⟨.binary op left right, span⟩)
    | some op =>
      if op.isLogical then do
        let left ← negate comparisons left
        let right ← negate comparisons right
        return ⟨.binary op left right, span⟩
      else .ok ⟨.binary op left right, span⟩
  | n => if n.isStatement then .error n.negationFault else .ok n.not

section Equations

variable {comparisons : Bool} {span : Span}

theorem negate_sequence_eq (x y : Node) :
    (⟨.sequence x y, span⟩ : Node).negate comparisons = do
      return ⟨.sequence x (← negate comparisons y), span⟩ := by
  rw [negate]

theorem negate_conditional_eq (c x y : Node) :
    (⟨.conditional c x y, span⟩ : Node).negate comparisons = do
      let x ← negate comparisons x
      let y ← negate comparisons y
      return ⟨.conditional c x y, span⟩ := by
  rw [negate]

theorem negate_binary_eq (op : BinaryOperator) (x y : Node) :
    (⟨.binary op x y, span⟩ : Node).negate comparisons =
      match op.opposite? comparisons with
      | none => .ok (not ⟨.binary op x y, span⟩)
      | some op =>
        if op.isLogical then do
          let x ← negate comparisons x
          let y ← negate comparisons y
          return ⟨.binary op x y, span⟩
        else .ok ⟨.binary op x y, span⟩ := by
  rw [negate]

end Equations

end Node

end ScriptMinifier
