import Mathlib
import ScriptMinifier.Proofs.Throughout
import ScriptMinifier.Proofs.WellFormed

namespace ScriptMinifier

open Pass (Gives)

namespace Node

def isBlock (n : Node) : Bool :=
  match n.form with
  | .block _ => true
  | _ => false

def isExpressionStatement (n : Node) : Bool :=
  match n.form with
  | .expression _ => true
  | _ => false

def isValuedExit (n : Node) : Bool :=
  match n.form with
  | .exit _ (some _) => true
  | _ => false

/-- A function declaration, or another declaration without initializers. -/
def isBareDeclaration (n : Node) : Bool :=
  match n.form with
  | .declaration _ => true
  | .definitions _ bindings _ => bindings.all (·.value.isNone)
  | _ => false

theorem exists_of_isExpressionStatement {n : Node} (h : n.isExpressionStatement = true) :
    ∃ e s, n = ⟨.expression e, s⟩ := by
  obtain ⟨form, span⟩ := n
  cases form with
  | expression e => exact ⟨e, span, rfl⟩
  | _ => exact absurd h Bool.false_ne_true

theorem exists_of_isValuedExit {n : Node} (h : n.isValuedExit = true) :
    ∃ kind v s, n = ⟨.exit kind (some v), s⟩ := by
  obtain ⟨form, span⟩ := n
  cases form with
  | exit kind value =>
    cases value with
    | none => exact absurd h Bool.false_ne_true
    | some v => exact ⟨kind, v, span, rfl⟩
  | _ => exact absurd h Bool.false_ne_true

end Node

namespace Statements

/-- A statement list on which the options leave nothing to do. -/
structure Normal (o : Options) (ns : List Node) : Prop where
  flat : ∀ n ∈ ns, n.isBlock = false ∧ n.isEmpty = false
  reachable : o.on .deadCode = true → ns.Pairwise fun n d => n.isJump = true →
    d.isBareDeclaration = true
  joined : o.on .sequences = true → ns.IsChain fun a b =>
    ¬(a.isExpressionStatement = true ∧ b.isExpressionStatement = true)
  closed : o.on .sequences = true → ∀ a b, ns = [a, b] → a.isExpressionStatement = true →
    b.isValuedExit = false

end Statements

/-- The lists in a form are normal, and a block is not there for a single statement. -/
def Form.Normal (o : Options) (form : Form Node) : Prop :=
  (∀ body ∈ form.body?, Statements.Normal o body) ∧ ∀ body, form = .block body → body.length ≠ 1

variable {o : Options} {ns ms : List Node} {n : Node}

namespace Statements

/-- What survives in unreachable code is bare. -/
theorem bare_of_mem_survivors {d : Node} (hd : d ∈ survivors n) : d.isBareDeclaration = true := by
  refine forall_survivors (Q := fun d => d.isBareDeclaration = true)
    (fun kind bs hoisted s _ => ?_) (fun l s _ => rfl) d hd
  simp [Node.isBareDeclaration]

/-- To be neither a block nor empty is kept by what follows the splicing of blocks. -/
theorem stable_flat : Stable fun n => n.isBlock = false ∧ n.isEmpty = false where
  block h := absurd h.1 (by simp [Node.isBlock])
  survivors _ d hd := by
    have hbare := bare_of_mem_survivors hd
    obtain ⟨form, span⟩ := d
    cases form <;> first | exact ⟨rfl, rfl⟩ | cases hbare
  sequence _ _ := ⟨rfl, rfl⟩
  exit _ _ := ⟨rfl, rfl⟩

theorem stable_bare : Stable fun n => n.isBareDeclaration = true where
  block h := nomatch h
  survivors _ _ hd := bare_of_mem_survivors hd
  sequence h _ := nomatch h
  exit h _ := nomatch h

theorem flat_flatten (h : ∀ n ∈ ns, n.form.Normal o) :
    ∀ n ∈ flatten ns, n.isBlock = false ∧ n.isEmpty = false := by
  induction ns with
  | nil => exact fun n hn => nomatch hn
  | cons n ns ih =>
    obtain ⟨hn, hns⟩ := List.forall_mem_cons.1 h
    have hrest := ih hns
    obtain ⟨form, span⟩ := n
    cases form with
    | block body => exact List.forall_mem_append.2 ⟨(hn.1 body rfl).flat, hrest⟩
    | empty => exact hrest
    | _ => exact List.forall_mem_cons.2 ⟨⟨rfl, rfl⟩, hrest⟩

/-- After pruning, only bare declarations stand behind a jump. -/
theorem reachable_pruned (ns : List Node) :
    (pruned ns).Pairwise fun n d => n.isJump = true → d.isBareDeclaration = true := by
  induction ns with
  | nil => exact .nil
  | cons n ns ih =>
    have hkept : ∀ d ∈ ns.flatMap survivors, d.isBareDeclaration = true := by
      intro d hd
      obtain ⟨m, -, hd⟩ := List.mem_flatMap.1 hd
      exact bare_of_mem_survivors hd
    rw [pruned]
    by_cases hj : n.isJump = true
    · rw [if_pos hj]
      refine .cons (fun d hd _ => hkept d hd) ?_
      exact List.pairwise_of_forall_mem_list fun _ _ d hd _ => hkept d hd
    · rw [if_neg hj]
      exact .cons (fun d _ hn => absurd hn hj) ih

/-- A joined run is no jump, and there is none behind one. -/
theorem reachable_joinRuns
    (h : ns.Pairwise fun n d => n.isJump = true → d.isBareDeclaration = true) :
    (joinRuns ns).Pairwise fun n d => n.isJump = true → d.isBareDeclaration = true := by
  fun_induction joinRuns ns with
  | case1 a span b s ns ih =>
    refine ih (.cons (fun d _ hn => ?_) ?_)
    · cases hn
    · exact (List.pairwise_cons.1 (List.pairwise_cons.1 h).2).2
  | case2 n ns _ ih =>
    obtain ⟨hn, hns⟩ := List.pairwise_cons.1 h
    refine .cons (fun d hd hj => ?_) (ih hns)
    exact stable_bare.joinRuns (fun m hm => hn m hm hj) d hd
  | case3 => exact h

/-- Joining runs does not change whether a list begins with an expression statement. -/
theorem head?_joinRuns (ns : List Node) :
    (joinRuns ns).head?.any (·.isExpressionStatement) = ns.head?.any (·.isExpressionStatement) := by
  fun_induction joinRuns ns with
  | case1 a span b s ns ih => exact ih
  | case2 => rfl
  | case3 => rfl

/-- No two expression statements are left side by side. -/
theorem joined_joinRuns (ns : List Node) : (joinRuns ns).IsChain fun a b =>
    ¬(a.isExpressionStatement = true ∧ b.isExpressionStatement = true) := by
  fun_induction joinRuns ns with
  | case1 a span b s ns ih => exact ih
  | case2 n ns hne ih =>
    refine List.isChain_cons.2 ⟨fun b hb => ?_, ih⟩
    rintro ⟨hn, hb'⟩
    have hhead := head?_joinRuns ns
    rw [Option.mem_def.1 hb, Option.any_some, hb'] at hhead
    obtain _ | ⟨m, ns⟩ := ns
    · cases hhead
    · obtain ⟨x, s, rfl⟩ := Node.exists_of_isExpressionStatement hn
      obtain ⟨y, t, rfl⟩ := Node.exists_of_isExpressionStatement hhead.symm
      exact hne _ _ _ _ _ rfl rfl
  | case3 => exact .nil

/-- Joining ends in a single exit, or in what joining the runs comes to. -/
theorem join_cases (ns : List Node) :
    (∃ kind v s, join ns = [⟨.exit kind (some v), s⟩]) ∨
      join ns = joinRuns ns ∧ ∀ a b, joinRuns ns = [a, b] → a.isExpressionStatement = true →
        b.isValuedExit = false := by
  unfold join
  split
  · exact .inl ⟨_, _, _, rfl⟩
  · rename_i hne
    refine .inr ⟨rfl, fun a b hab ha => ?_⟩
    by_contra hb
    obtain ⟨x, s, rfl⟩ := Node.exists_of_isExpressionStatement ha
    obtain ⟨kind, v, t, rfl⟩ := Node.exists_of_isValuedExit (by simpa using hb)
    exact hne _ _ _ _ _ hab

/-- Joining the expression statements of a list that has no more to splice or to prune. -/
theorem normal_join
    (hflat : ∀ n ∈ ns, n.isBlock = false ∧ n.isEmpty = false)
    (hreach : o.on .deadCode = true → ns.Pairwise fun n d => n.isJump = true →
      d.isBareDeclaration = true) : Normal o (join ns) := by
  rcases join_cases ns with ⟨kind, v, s, h⟩ | ⟨h, hpair⟩
  · rw [h]
    refine ⟨fun n hn => ?_, fun _ => List.pairwise_singleton _ _, fun _ => .singleton _,
      fun _ a b hab => nomatch hab⟩
    obtain rfl := List.mem_singleton.1 hn
    exact ⟨rfl, rfl⟩
  · rw [h]
    exact ⟨stable_flat.joinRuns hflat, fun hd => reachable_joinRuns (hreach hd),
      fun _ => joined_joinRuns ns, fun _ => hpair⟩

/-- Statements whose own lists are normal are tidied to a normal list. -/
theorem normal_tidied (h : ∀ n ∈ ns, n.form.Normal o) : Normal o (tidied o ns) := by
  have hflat := flat_flatten h
  unfold tidied
  by_cases hd : o.on .deadCode = true
  · have hflat' := stable_flat.pruned hflat
    have hreach := reachable_pruned (flatten ns)
    by_cases hs : o.on .sequences = true
    · rw [if_pos hd, if_pos hs]
      exact normal_join hflat' fun _ => hreach
    · rw [if_pos hd, if_neg hs]
      exact ⟨hflat', fun _ => hreach, fun h => absurd h hs, fun h => absurd h hs⟩
  · by_cases hs : o.on .sequences = true
    · rw [if_neg hd, if_pos hs]
      exact normal_join hflat fun h => absurd h hd
    · rw [if_neg hd, if_neg hs]
      exact ⟨hflat, fun h => absurd h hd, fun h => absurd h hs, fun h => absurd h hs⟩

end Statements

/-- Every list in the tree is normal. -/
abbrev Node.Normal (o : Options) : Node → Prop := Node.Throughout (fun _ => true) (Form.Normal o)

/-- What the rules make anew holds no statement list. -/
theorem persists_normal : Form.Persists (fun _ => true) (Form.Normal o) where
  simple {form} h := by
    have hbody : form.body? = none := by cases form <;> first | rfl | cases h
    have hblock (body : List Node) : form ≠ .block body := by
      rintro rfl
      cases hbody
    exact ⟨rfl, by simp [hbody], fun body hb => absurd hb (hblock body)⟩
  block := rfl
  bare _ := ⟨fun _ h => absurd h (by simp [Form.body?]), fun _ h => absurd h (by simp)⟩
  search _ := rfl

theorem Form.Lift.normal {form form' : Form Node}
    (h : form.Lift (fun _ _ m => m.Normal o) (Statements.Tidied o fun _ m => m.Normal o) form')
    (hne : ∀ x, form' ≠ .block [x]) : form'.Normal o := by
  have hlist {as bs : List Node}
      (h : Statements.Tidied o (fun _ m => m.Normal o) as bs) : Statements.Normal o bs := by
    obtain ⟨ms, hms, rfl⟩ := h
    refine Statements.normal_tidied fun m hm => ?_
    obtain ⟨_, -, hnormal⟩ := exists_of_forall₂ hms hm
    exact hnormal.self
  refine ⟨fun body hb => ?_, fun body hb hl => ?_⟩
  · cases h with
    | block h | case _ h | try_ h | catch_ h | finally_ h | program h | declaration h
    | function h =>
      obtain rfl := Option.some.inj hb
      exact hlist h
    | _ => cases hb
  · obtain ⟨x, rfl⟩ := List.length_eq_one_iff.1 hl
    exact hne x hb

/-- The invariant of the pass: whatever it comes to without a fault has normal lists only. -/
theorem gives_normal (n : Node) (s : Setting) :
    Gives (fun _ => True) s.Holds (n.reduce o) (Node.Normal o) := by
  induction n using Node.reduceInduct o generalizing s with
  | unmarked form span hm ihParts =>
    refine gives_reduce (R := fun _ _ m => m.Normal o) hm (fun c hc => hc.1)
      (fun k a ha => (ihParts k a ha _).narrow fun _ => Setting.holds_child) fun form' h => ?_
    refine ⟨Rule.tests_any form', fun m hm' => ?_⟩
    have hparts := h.throughout (persists_normal.sustains o) fun _ _ _ h => h
    exact Rule.throughout_simplified persists_normal h.normal (fun _ => hparts) hm'
  | declaration l span hl => exact (persists_normal.sustains o).gives_declaration hl
  | definitions kind bs span ihAssignments =>
    exact (persists_normal.sustains o).gives_definitions fun a ha => ihAssignments a ha _

/-- Whatever is reduced, in whatever context, every statement list of the outcome is normal. -/
theorem reduce_normal (o : Options) (n m : Node) (s : Session)
    (h : ((n.reduce o).run s).1 = .ok m) : ∀ x ∈ m.visited fun _ => true, x.form.Normal o :=
  (gives_normal n _).of_run (Setting.holds_of s.context) h

/-- `{{;a;}break;var x=b;}`: the inner block is spliced, and behind the jump the name survives. -/
theorem reduce_nested_block_normal :
    let n := Build.block [Build.block [Build.empty, Build.statement (Build.identifier "a")],
      Build.leave none, Build.var [("x", some (Build.identifier "b"))]]
    let m := Build.block [Build.statement (Build.identifier "a"), Build.leave none,
      Build.var [("x", none)]]
    ((n.reduce .full).run .initial).1 = .ok m ∧
      ∀ x ∈ m.visited fun _ => true, x.form.Normal .full := by
  intro n m
  have h : ((n.reduce .full).run .initial).1 = .ok m := by cbv
  exact ⟨h, reduce_normal .full n m .initial h⟩

end ScriptMinifier
