import Mathlib.Logic.Function.Iterate
import ScriptMinifier.Minify

namespace ScriptMinifier

namespace Node

/-- One round of the pass: reduces a node by means of `call`. -/
def reduceWith (o : Options) (call : Node → Pass Node) (n : Node) : Pass Node :=
  n.reduceBy o (pure ()) call (n.work o)

variable {o : Options} {n : Node}

theorem reduce_eq_reduceWith : n.reduce o = n.reduceWith o (reduce o) := reduce_eq o n

/-- A round calls on lighter nodes only. -/
theorem reduceWith_congr {call call' : Node → Pass Node}
    (h : ∀ c, c.weight < n.weight → call c = call' c) :
    n.reduceWith o call = n.reduceWith o call' := by
  have hcalls : (fun c : { c : Node // c.weight < n.weight } => call c.1) = fun c => call' c.1 := by
    funext c
    exact h c.1 c.2
  rw [reduceWith, reduceWith, ← map_val_lighterWork, reduceBy_map, reduceBy_map, hcalls]

/-- Rounds beyond the weight of a tree are not asked for. -/
theorem iterate_reduceWith (beyond : Node → Pass Node) {k : Nat} (hk : n.weight ≤ k) :
    (reduceWith o)^[k] beyond n = n.reduce o := by
  induction k generalizing n with
  | zero =>
    have := n.form.ownWeight_pos
    rw [weight_eq] at hk
    omega
  | succ k ih =>
    rw [Function.iterate_succ_apply', reduce_eq_reduceWith]
    exact reduceWith_congr fun c hc => ih (by omega)

/-- The pass ends, on every tree and in every context: to reduce a node calls on nodes of less
weight only, marked declarations and what hoisting has put into a scope included, and as many rounds
as the node weighs come to what the pass comes to, whatever further rounds would do. -/
theorem reduce_terminates (o : Options) (n : Node) :
    (∀ call other : Node → Pass Node, n.reduceWith o call =
      n.reduceWith o fun c => if c.weight < n.weight then call c else other c) ∧
    n.reduce o = n.reduceWith o (reduce o) ∧
    ∀ (beyond : Node → Pass Node) (k : Nat),
      (reduceWith o)^[n.weight + k] beyond n = n.reduce o := by
  refine ⟨fun call other => reduceWith_congr fun c hc => ?_, reduce_eq_reduceWith,
    fun beyond k => ?_⟩
  · rw [if_pos hc]
  · exact iterate_reduceWith beyond (Nat.le_add_right _ _)

end Node

end ScriptMinifier
