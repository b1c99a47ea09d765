import ScriptMinifier.Proofs.Behaviour
import ScriptMinifier.Tree.Build

namespace ScriptMinifier

open Pass (Gives)

variable {σ α : Type}

/-- The same interpretation where computations may fail. -/
def Interpretation.guarded (I : Interpretation (StateM σ)) : Interpretation (StateT σ Option) where
  act a vs := fun s => some ((I.act a vs).run s)
  test := I.test

open Classical in
/-- Fails if the state changes. -/
noncomputable def unchanging (x : StateT σ Option α) : StateT σ Option α := fun s => do
  let (v, t) ← x.run s
  if t = s then some (v, t) else none

theorem eq_of_unchanging {x : StateT σ Option α} {s : σ} {r : α × σ}
    (h : (unchanging x).run s = some r) : x.run s = some r ∧ r.2 = s := by
  obtain ⟨⟨v, t⟩, hx, hr⟩ := Option.bind_eq_some_iff.1 h
  dsimp only at hr
  split at hr
  · obtain rfl := Option.some.inj hr
    exact ⟨hx, ‹t = s›⟩
  · cases hr

namespace Comparison

/-- The second computation does what the first does, if that does not fail. -/
def unfailing (σ : Type) : Comparison (StateT σ Option) (StateM σ) where
  rel V x y := ∀ s r, x.run s = some r → V r.1 (y.run s).1 ∧ r.2 = (y.run s).2
  rel_pure hV s r h := by
    obtain rfl := Option.some.inj h
    exact ⟨hV, rfl⟩
  rel_bind hx hf s r h := by
    obtain ⟨⟨v, t⟩, hv, hr⟩ := Option.bind_eq_some_iff.1 h
    obtain ⟨hV, ht⟩ := hx s _ hv
    obtain ⟨hW, hr⟩ := hf _ _ hV t r hr
    dsimp only at ht
    subst ht
    exact ⟨hW, hr⟩
  rel_of_map h s r hr := h s r hr

/-- The two computations do the same. -/
def same (σ : Type) : Comparison (StateM σ) (StateM σ) where
  rel V x y := ∀ s, V (x.run s).1 (y.run s).1 ∧ (x.run s).2 = (y.run s).2
  rel_pure hV s := ⟨hV, rfl⟩
  rel_bind {_ _ _ _ _ W x _ f _} hx hf s := by
    obtain ⟨hV, ht⟩ := hx s
    change W ((f (x.run s).1).run (x.run s).2).1 _ ∧ ((f (x.run s).1).run (x.run s).2).2 = _
    rw [ht]
    exact hf _ _ hV _
  rel_of_map h s := h s

variable (I : Interpretation (StateM σ))

theorem shares_unfailing : (unfailing σ).Shares I.guarded I := by
  refine ⟨fun a vs s r h => ?_, rfl⟩
  obtain rfl := Option.some.inj h
  exact ⟨rfl, rfl⟩

theorem drops_unfailing : (unfailing σ).Drops unchanging where
  idle h s r hr := h s r (eq_of_unchanging hr).1
  skip _ _ _ hr := ⟨trivial, (eq_of_unchanging hr).2⟩

theorem shares_same : (same σ).Shares I I := ⟨fun _ _ _ => ⟨rfl, rfl⟩, rfl⟩

end Comparison

namespace Node

/-- No operand that is dropped changes the state when the tree is executed from `s` with at most `k`
rounds for a loop. -/
def KeepsEffects (I : Interpretation (StateM σ)) (o : Options) (n : Node) (k : Nat) (s : σ) :
    Prop :=
  ((n.exec I.guarded (Node.audit I.guarded unchanging o) k).run s).isSome = true

/-- A structured statement, or a program of such statements. -/
inductive Executable (P : Form Node → Prop) : Node → Prop
  | statement {n : Node} : n.Structured P .statement → Executable P n
  | program {body : List Node} {span : Span} : (∀ n ∈ body, n.Structured P .statement) →
    Executable P ⟨.program body, span⟩

/-- An execution under audit that does not fail is one of the tree as it stands. -/
theorem run_of_audited {I : Interpretation (StateM σ)} {o : Options} {n : Node} {k : Nat} {s : σ}
    {r : Completion × σ}
    (h : (n.exec I.guarded (Node.audit I.guarded unchanging o) k).run s = some r) :
    r = (n.run I k).run s := by
  have hI := Comparison.shares_unfailing I
  have hvalue (e : Node) (t : Bool) : (Comparison.unfailing σ).rel (Agree t)
      (e.audit I.guarded unchanging o t) (e.eval I) := by
    have hdrop (x : StateT σ Option Primitive) (y : StateM σ Primitive)
        (h : (Comparison.unfailing σ).rel Eq x y) :
        (Comparison.unfailing σ).rel Eq (unchanging x) (id y) :=
      fun s r hr => h s r (eq_of_unchanging hr).1
    have hrel := hI.rel_audit hdrop o e t
    rw [audit_id] at hrel
    exact Comparison.mono hrel fun _ _ => .of_eq
  obtain ⟨hc, hs⟩ := hI.rel_exec hvalue k n s r h
  exact Prod.ext hc hs

end Node

section Execution

variable {m m' : Type → Type} [Monad m] [Monad m'] [LawfulMonad m] [LawfulMonad m']
  {K : Comparison m m'} {I : Interpretation m} {J : Interpretation m'}
  {drop : m Primitive → m Primitive} {o : Options} {n : Node}

/-- What is executed is reduced without a fault, to what does the same under the comparison. -/
theorem Comparison.gives_execution (hI : K.Shares I J) (hd : o.on .booleans = true → K.Drops drop)
    (hJ : o.on .comparisons = true → J.Typical)
    (hn : n.Executable fun form =>
      form.opensScope = false ∧ (o.on .comparisons = true → form.isOrder = false)) :
    Gives (fun _ => False) Setting.initial.Holds (n.reduce o) fun n' =>
      ∀ k, K.rel Eq (n.exec I (Node.audit I drop o) k) (n'.run J k) := by
  have hsound (form : Form Node)
      (h : form.opensScope = false ∧ (o.on .comparisons = true → form.isOrder = false)) :
      form.opensScope = false ∧ o.Sound J form := by
    refine ⟨h.1, fun hc => ?_⟩
    cases form with
    | binary => exact h.2 hc
    | unary | assign => exact fun _ => hJ hc
    | _ => exact trivial
  cases hn with
  | statement hn =>
    have hbelow : Category.statement.Below Setting.initial.parent? := by
      intro e he
      cases he
    exact (gives_reduced hI hd hJ (hn.mono hsound) (.inl rfl) hbelow rfl).mono fun n' h => h.does
  | program hb => exact gives_program hI hd hJ fun n hn => (hb n hn).mono hsound

end Execution

namespace Interpretation

/-- The names `a` and `b` are undefined, and any other stands for itself. The state lists what has
been called. -/
def calling : Interpretation (StateM (List Primitive)) where
  act
    | .identifier name, _ => pure (if name = "a" ∨ name = "b" then .undefined else .string name)
    | .call, f :: _ => fun s => (.undefined, s ++ [f])
    | .assign .assign, [_, w] => pure w
    | _, _ => pure (.boolean true)
  test _ _ _ := true

theorem typical_calling : calling.Typical :=
  ⟨fun _ => ⟨pure true, rfl⟩, fun _ _ => ⟨pure (), rfl⟩⟩

end Interpretation

/-- A structured statement or program, without functions and, if `comparisons` is on, without
orders, is reduced without a fault to one that does the same: it leaves the same state and ends the
same way, or has done the same when the rounds for its loops are used up. With `comparisons` on,
`delete` has to yield a boolean and `=` what it assigns; with `booleans` on, no operand that is
dropped may change the state. -/
theorem minify_preserves_execution (o : Options) (n : Node)
    (hn : n.Executable fun form =>
      form.opensScope = false ∧ (o.on .comparisons = true → form.isOrder = false)) :
    ∃ n', (minify o n).result = .ok n' ∧
      ∀ (σ : Type) (I : Interpretation (StateM σ)), (o.on .comparisons = true → I.Typical) →
        ∀ k s, (o.on .booleans = true → n.KeepsEffects I o k s) →
          (n'.run I k).run s = (n.run I k).run s := by
  let Typical := (σ : Type) × { I : Interpretation (StateM σ) // o.on .comparisons = true → I.Typical }
  let calling : Typical := ⟨List Primitive, .calling, fun _ => Interpretation.typical_calling⟩
  have hgives (i : Typical) : Gives (fun _ => False) Setting.initial.Holds (n.reduce o) fun n' =>
      ∀ k s, (o.on .booleans = true → n.KeepsEffects i.2.1 o k s) →
        (n'.run i.2.1 k).run s = (n.run i.2.1 k).run s := by
    obtain ⟨σ, I, hI⟩ := i
    cases hb : o.on .booleans with
    | true =>
      refine (Comparison.gives_execution (Comparison.shares_unfailing I)
        (fun _ => Comparison.drops_unfailing) hI hn).mono fun n' h k s hkeeps => ?_
      obtain ⟨r, hr⟩ := Option.isSome_iff_exists.1 (hkeeps rfl)
      obtain ⟨hc, hs⟩ := h k s r hr
      rw [← Node.run_of_audited hr]
      exact (Prod.ext hc hs).symm
    | false =>
      have hd (hb' : o.on .booleans = true) : (Comparison.same σ).Drops id := by
        rw [hb] at hb'
        cases hb'
      refine (Comparison.gives_execution (Comparison.shares_same I) hd hI hn).mono
        fun n' h k s _ => ?_
      have haudit : Node.audit I id o = fun e _ => e.eval I :=
        funext fun e => funext fun t => Node.audit_id I o e t
      have hsame := h k s
      rw [haudit] at hsame
      exact (Prod.ext hsame.1 hsame.2).symm
  obtain ⟨n', hall, hrun⟩ := Gives.ok_forall hgives calling [] Setting.holds_initial
  obtain ⟨_, hresult⟩ := hrun [] Setting.holds_initial []
  exact ⟨n', congrArg Prod.fst hresult, fun σ I hI => hall ⟨σ, I, hI⟩⟩

/-- `var x=f();if(!x)g();`. -/
theorem minify_var_preserves_execution :
    let n := Build.program [Build.var [("x", some (Build.call "f" []))],
      Build.branch (Build.not (Build.identifier "x")) (Build.callStatement "g" []) none]
    ∃ n', (minify .full n).result = .ok n' ∧
      ∀ (σ : Type) (I : Interpretation (StateM σ)), (Options.full.on .comparisons = true → I.Typical) →
        ∀ k s, (Options.full.on .booleans = true → n.KeepsEffects I .full k s) →
          (n'.run I k).run s = (n.run I k).run s := by
  intro n
  refine minify_preserves_execution .full n (.program fun c hc => ?_)
  let P (form : Form Node) : Prop :=
    form.opensScope = false ∧ (Options.full.on .comparisons = true → form.isOrder = false)
  have hname (s : String) : (Build.identifier s).BuiltOf P :=
    .mk rfl ⟨rfl, fun _ => rfl⟩ fun _ c hc => by cases hc
  have hcall (s : String) : (Build.call s []).BuiltOf P := by
    refine .mk rfl ⟨rfl, fun _ => rfl⟩ fun _ c hc => ?_
    obtain rfl : c = Build.identifier s := by simpa [Form.children] using hc
    exact hname s
  have hnot : (Build.not (Build.identifier "x")).BuiltOf P := by
    refine .mk rfl ⟨rfl, fun _ => rfl⟩ fun _ c hc => ?_
    obtain rfl : c = Build.identifier "x" := by simpa [Form.children] using hc
    exact hname "x"
  have hg : (Build.callStatement "g" []).Structured P .statement := by
    refine .statement rfl (.inl rfl) fun j a ha => ?_
    obtain ⟨rfl, rfl⟩ : j = .expression ∧ a = Build.call "g" [] := by simpa [Form.parts] using ha
    exact .expression (by decide) (hcall "g")
  simp only [List.mem_cons, List.not_mem_nil, or_false] at hc
  obtain rfl | rfl := hc
  · refine .statement rfl (.inl rfl) fun j a ha => ?_
    obtain ⟨rfl, rfl⟩ : j = .expression ∧ a = Build.call "f" [] := by simpa [Form.parts] using ha
    exact .expression (by decide) (hcall "f")
  · refine .statement rfl (.inl rfl) fun j a ha => ?_
    simp only [Form.parts, List.mem_cons, Prod.mk.injEq, List.not_mem_nil, or_false,
      Option.toList_none, List.map_nil] at ha
    obtain ⟨rfl, rfl⟩ | ⟨rfl, rfl⟩ := ha
    · exact .expression (by decide) hnot
    · exact hg

/-- With `comparisons` on, `if(a>=b)f();else g();` becomes `a<b?g():f();`. Both tests fail where `a`
and `b` are undefined. -/
theorem minify_order_changes_execution :
    let test := fun op => Build.binary op (Build.identifier "a") (Build.identifier "b")
    let n := Build.branch (test .ge) (Build.callStatement "f" []) (some (Build.callStatement "g" []))
    ∃ n' σ, ∃ I : Interpretation (StateM σ), (minify .full n).result = .ok n' ∧ I.Typical ∧
      ∃ k s, (n'.run I k).run s ≠ (n.run I k).run s := by
  intro test n
  let n' := Build.statement
    (Build.conditional (test .lt) (Build.call "g" []) (Build.call "f" []))
  have hresult : (minify .full n).result = .ok n' := by
    simp only [minify, n, n', test, Build.branch, Build.binary, Build.callStatement, Build.statement,
      Build.call, Build.identifier, Build.conditional, Form.node]
    iterate 10
      rw [Node.reduce_eq]
      simp only [Node.work, Node.reduceBy, Node.form_mk, Node.span_mk, Hoist.surfaceForm,
        Form.traverse, Option.mapM_some]
    rfl
  have hrun : (n.run .calling 0).run [] = (.normal, [.string "g"]) := by
    simp only [n, test, Build.branch, Build.binary, Build.callStatement, Build.statement, Build.call,
      Build.identifier, Form.node, Node.run_branch, Node.run_expression, Node.eval_eq, Node.form_mk,
      Form.map, Option.map]
    rfl
  have hrun' : (n'.run .calling 0).run [] = (.normal, [.string "f"]) := by
    simp only [n', test, Build.binary, Build.statement, Build.conditional, Build.call,
      Build.identifier, Form.node, Node.run_expression, Node.eval_eq, Node.form_mk, Form.map]
    rfl
  refine ⟨n', _, .calling, hresult, Interpretation.typical_calling, 0, [], ?_⟩
  rw [hrun, hrun']
  intro h
  have hcalled : [Primitive.string "f"] = [.string "g"] := congrArg Prod.snd h
  simp at hcalled

end ScriptMinifier
