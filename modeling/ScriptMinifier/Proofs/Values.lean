import ScriptMinifier.Proofs.Audit
import ScriptMinifier.Tree.Build

namespace ScriptMinifier

open Pass (Gives)

/-- What gives an expression without effects its value. -/
structure Environment where
  identifier : String → Primitive
  this : Primitive
  /-- The answers of `in` and `instanceof`. -/
  test : BinaryOperator → Primitive → Primitive → Bool

def Environment.interpretation (env : Environment) : Interpretation Id where
  act
    | .identifier name, _ => env.identifier name
    | .this, _ => env.this
    | _, _ => Primitive.undefined
  test := env.test

def Node.value (env : Environment) (n : Node) : Primitive := (n.eval env.interpretation).run

/-- The forms whose value is told by values alone; that of `void` is `undefined`. -/
def Form.isPlain {α : Type} : Form α → Bool
  | string _ | number _ | boolean _ | null | undefined | identifier _ | this | binary ..
  | conditional .. | sequence .. => true
  | unary op _ => op.isPure || op = .void
  | _ => false

/-- Computations without effects compare by their values. -/
def Comparison.values : Comparison Id Id where
  rel V x y := V x.run y.run
  rel_pure h := h
  rel_bind hx hf := hf _ _ hx
  rel_of_map h := h

/-- Neither operators of an expression without effects nor `comparisons` lead the rules astray. -/
theorem sound_of_isPlain {o : Options} {env : Environment} {e : Node}
    (he : e.BuiltOf fun form => form.isPlain = true)
    (ho : o.on .comparisons = false ∨ e.BuiltOf fun form => form.isOrder = false) :
    e.BuiltOf fun form => o.Sound env.interpretation form ∧ form.ScopeFits := by
  have hscope (form : Form Node) (hp : form.isPlain = true) (hs : form.opensScope = true) :
      False := by
    cases form with
    | declaration | program | function => cases hp
    | _ => cases hs
  rcases ho with ho | ho
  · refine he.mono fun form hp => ⟨fun hc => ?_, fun hs => (hscope form hp hs).elim⟩
    rw [ho] at hc
    cases hc
  · refine (he.and ho).mono fun form h => ⟨fun _ => ?_, fun hs => (hscope form h.1 hs).elim⟩
    obtain ⟨hp, hn⟩ := h
    cases form with
    | binary op l r => exact hn
    | unary op x =>
      rintro rfl
      cases hp
    | assign op x y => cases hp
    | _ => exact trivial

/-- In every context an expression without effects is reduced without a fault, to one of the same
truth where only that matters and of the same value everywhere else. -/
theorem gives_value {o : Options} {e : Node} (he : e.BuiltOf fun form => form.isPlain = true)
    (ho : o.on .comparisons = false ∨ e.BuiltOf fun form => form.isOrder = false)
    (env : Environment) (truth : Bool) :
    Gives (fun _ => False) (Asks truth) (e.reduce o) fun e' =>
      Agree truth (e'.value env) (e.value env) := by
  have hI : Comparison.values.Shares env.interpretation env.interpretation :=
    ⟨fun _ _ => rfl, rfl⟩
  have hd : Comparison.values.Drops id := ⟨fun h => h, fun _ => trivial⟩
  refine (Comparison.gives_audited hI (fun _ => hd) (sound_of_isPlain he ho) truth).mono fun e' h => ?_
  have hagree := h.2
  rw [Node.audit_id] at hagree
  cases truth with
  | true => exact Eq.symm hagree
  | false => exact Eq.symm hagree

/-- An expression without effects, `comparisons` off or no order in it, is reduced without a fault
in any context. Where only truth matters the outcome has the same truth in every environment, and
everywhere else the same value; a run on the expression alone keeps the value. -/
theorem reduce_preserves_value (o : Options) (e : Node)
    (he : e.BuiltOf fun form => form.isPlain = true)
    (ho : o.on .comparisons = false ∨ e.BuiltOf fun form => form.isOrder = false) :
    (∀ c : Context, ∃ e', (∀ ws, ((e.reduce o).run ⟨c, ws⟩).1 = .ok e') ∧ ∀ env,
      if Context.onlyTruthMatters (e.enclosure :: c) then
        (e'.value env).truthy = (e.value env).truthy
      else e'.value env = e.value env) ∧
    ∃ e', (minify o e).result = .ok e' ∧ ∀ env, e'.value env = e.value env := by
  have hok (c : Context) : ∃ e', (∀ ws, ((e.reduce o).run ⟨c, ws⟩).1 = .ok e') ∧
      ∀ env, Agree c.testsTruth (e'.value env) (e.value env) := by
    have hgives (env : Environment) := gives_value he ho env c.testsTruth
    let nowhere : Environment := ⟨fun _ => .undefined, .undefined, fun _ _ _ => true⟩
    obtain ⟨e', hall, hrun⟩ := Gives.ok_forall hgives nowhere c rfl
    refine ⟨e', fun ws => ?_, hall⟩
    obtain ⟨ws', h⟩ := hrun c rfl ws
    rw [h]
  refine ⟨fun c => ?_, ?_⟩
  · exact hok c
  · obtain ⟨e', hrun, hagree⟩ := hok []
    exact ⟨e', hrun [], hagree⟩

/-- `typeof a && b`, of which a condition keeps the truth only. -/
theorem reduce_typeof_preserves_value :
    let e := Build.binary .and (Build.unary .typeOf (Build.identifier "a")) (Build.identifier "b")
    (∀ c : Context, ∃ e', (∀ ws, ((e.reduce .full).run ⟨c, ws⟩).1 = .ok e') ∧ ∀ env,
      if Context.onlyTruthMatters (e.enclosure :: c) then
        (e'.value env).truthy = (e.value env).truthy
      else e'.value env = e.value env) ∧
    ∃ e', (minify .full e).result = .ok e' ∧ ∀ env, e'.value env = e.value env := by
  intro e
  have hname (P : Form Node → Prop) (s : String) (h : P (.identifier s)) :
      (Build.identifier s).BuiltOf P :=
    .mk rfl h fun _ c hc => by cases hc
  have hbuilt (P : Form Node → Prop) (h : ∀ form ∈ [Form.identifier "a", .identifier "b",
      .unary .typeOf (Build.identifier "a"), e.form], P form) : e.BuiltOf P := by
    refine .mk rfl (h e.form (by simp)) fun _ c hc => ?_
    obtain rfl | rfl : c = Build.unary .typeOf (Build.identifier "a") ∨ c = Build.identifier "b" := by
      simpa [Form.children] using hc
    · refine .mk rfl (h _ (by simp)) fun _ c hc => ?_
      obtain rfl : c = Build.identifier "a" := by simpa [Form.children] using hc
      exact hname P "a" (h _ (by simp))
    · exact hname P "b" (h _ (by simp))
  refine reduce_preserves_value .full e (hbuilt _ ?_) (.inr (hbuilt _ ?_))
  · intro form hform
    simp only [List.mem_cons, List.not_mem_nil, or_false] at hform
    obtain rfl | rfl | rfl | rfl := hform <;> rfl
  · intro form hform
    simp only [List.mem_cons, List.not_mem_nil, or_false] at hform
    obtain rfl | rfl | rfl | rfl := hform <;> rfl

end ScriptMinifier
