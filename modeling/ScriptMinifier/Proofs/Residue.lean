import Mathlib
import ScriptMinifier.Proofs.Throughout
import ScriptMinifier.Tree.Build

namespace ScriptMinifier

open Pass (Gives)

/-- The condition has no value to decide by. -/
def Node.Undecided (o : Options) (c : Node) : Prop :=
  o.on .constants = true → ∀ v, c.constant? ≠ .ok (some v)

/-- A form on which the rules for marks, literals, debuggers, accesses and conditions have nothing
left to do. -/
def Form.Exhausted (o : Options) : Form Node → Prop
  | .definitions _ _ hoisted => hoisted = false
  | .declaration l => l.hoisted = false
  | .boolean _ => o.on .booleans = false
  | .debugger => o.on .dropDebugger = false
  | .index _ property => o.on .properties = true → ∀ name s, property = ⟨.string name, s⟩ →
    Text.isIdentifier name = false
  | .branch c _ _ | .conditional c _ _ => o.on .conditionals = true → c.Undecided o
  | .loop .whileDo c _ => o.on .loops = true → c.Undecided o
  | .loop .doWhile c _ => o.on .loops = true → o.on .constants = true → ∀ v,
    c.constant? = .ok (some v) → v.truthy = false
  | _ => True

variable {o : Options} {c : Node} {v : Primitive}

theorem Node.Undecided.of_value? (h : o.value? c = none) : c.Undecided o := by
  intro ho v hv
  have hvalue := Options.value?_of_constant? ho hv
  rw [h] at hvalue
  cases hvalue

/-- A form that has no rule of its own has nothing left to do once it is unmarked. -/
theorem Form.Exhausted.of_isRebuilt {form : Form Node} (hm : form.isMarked = false)
    (h : form.isRebuilt = true) : form.Exhausted o := by
  cases form with
  | definitions | declaration => exact hm
  | _ => trivial

/-- What the rules make anew they make in the form they leave. -/
theorem sustains_exhausted : Form.Sustains o (fun _ => true) (Form.Exhausted o) where
  enters _ := rfl
  block := rfl
  search _ := rfl
  ordinary {form} h := by
    cases form <;> trivial
  bare h := h
  debugger hoff := hoff
  boolean hoff := hoff
  index hname := hname
  branch hopen hon := .of_value? (hopen hon)
  conditional hopen hon := .of_value? (hopen hon)
  branches h := h
  loop {kind c body} hopen := by
    cases kind with
    | whileDo =>
      intro hon ho v hv
      have hrun := hopen hon v (Options.value?_of_constant? ho hv)
      exact absurd hrun.2 (by simp)
    | doWhile =>
      intro hon ho v hv
      have hrun := hopen hon v (Options.value?_of_constant? ho hv)
      exact hrun.1

/-- The invariant of the pass: whatever it comes to without a fault has nothing left to do. -/
theorem gives_exhausted (n : Node) (s : Setting) :
    Gives (fun _ => True) s.Holds (n.reduce o)
      (Node.Throughout (fun _ => true) (Form.Exhausted o)) := by
  induction n using Node.reduceInduct o generalizing s with
  | unmarked form span hm ihParts =>
    refine gives_reduce (R := fun _ _ m => m.Throughout (fun _ => true) (Form.Exhausted o)) hm
      (fun c hc => hc.1) (fun k a ha => (ihParts k a ha _).narrow fun _ => Setting.holds_child)
      fun form' h => ?_
    refine ⟨Rule.tests_any form', fun m hm' => ?_⟩
    have hparts := h.throughout sustains_exhausted fun _ _ _ h => h
    have hmark : form'.isMarked = false := by
      rw [h.isMarked, Hoist.isMarked_surfaceForm, hm]
    exact Rule.throughout_of_simplified sustains_exhausted
      (fun hf _ => .of_isRebuilt hmark hf) (fun _ => hparts) hm'
  | declaration l span hl => exact sustains_exhausted.gives_declaration hl
  | definitions kind bs span ihAssignments =>
    exact sustains_exhausted.gives_definitions fun a ha => ihAssignments a ha _

/-- Whatever is reduced, in whatever context, no rule that is on has anything left to do on what
comes out. -/
theorem reduce_exhausted (o : Options) (n m : Node) (s : Session)
    (h : ((n.reduce o).run s).1 = .ok m) : ∀ x ∈ m.visited fun _ => true, x.form.Exhausted o :=
  (gives_exhausted n _).of_run (Setting.holds_of s.context) h

/-- `if(!a){debugger;var x=b;}` becomes `var x;a||(x=b);`. -/
theorem reduce_negated_branch_exhausted :
    let n := Build.program [Build.branch (Build.not (Build.identifier "a"))
      (Build.block [Form.debugger.node, Build.var [("x", some (Build.identifier "b"))]]) none]
    let m := Build.program [Build.var [("x", none)], Build.statement (Build.binary .or
      (Build.identifier "a") (Build.assign (Build.identifier "x") (Build.identifier "b")))]
    ((n.reduce .full).run .initial).1 = .ok m ∧
      ∀ x ∈ m.visited fun _ => true, x.form.Exhausted .full := by
  intro n m
  have h : ((n.reduce .full).run .initial).1 = .ok m := by cbv
  exact ⟨h, reduce_exhausted .full n m .initial h⟩

end ScriptMinifier
