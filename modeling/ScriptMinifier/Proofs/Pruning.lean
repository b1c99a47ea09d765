import Mathlib.Data.List.Flatten
import ScriptMinifier.Proofs.BoundNames
import ScriptMinifier.Proofs.Silence

namespace ScriptMinifier

namespace Pass

variable {α β : Type} {o : Options} {a : α} {b : β} {raised raised' : List Warning}

/-- Whatever the state, the step comes to this result, raises these warnings and leaves the context
as it was. -/
def Answers (o : Options) (p : Pass α) (a : α) (raised : List Warning) : Prop :=
  ∀ s, p.run s = (.ok a, ⟨s.context, s.warnings ++ o.heard raised⟩)

namespace Answers

protected theorem pure (a : α) : Answers o (pure a) a [] := by
  intro s
  rw [Options.heard_nil, List.append_nil]
  rfl

protected theorem bind {p : Pass α} {f : α → Pass β} (h : Answers o p a raised)
    (hf : Answers o (f a) b raised') : Answers o (p >>= f) b (raised ++ raised') := by
  intro s
  rw [run_bind, h, Options.heard_append, ← List.append_assoc]
  exact hf _

protected theorem warn (finding : Finding) (p : Position) :
    Answers o (warn o finding p) () [⟨finding.template, p⟩] := by
  intro s
  unfold Pass.warn report Options.heard
  split
  · rfl
  · rw [List.append_nil]
    rfl

theorem mapM_list {f : α → Pass β} {g : α → β} {w : α → List Warning} {as : List α}
    (h : ∀ a ∈ as, Answers o (f a) (g a) (w a)) :
    Answers o (as.mapM f) (as.map g) (as.flatMap w) := by
  induction as with
  | nil => exact .pure []
  | cons a as ih =>
    obtain ⟨ha, has⟩ := List.forall_mem_cons.1 h
    have hrest := (ih has).bind (f := fun bs => pure (g a :: bs)) (.pure _)
    rw [List.append_nil] at hrest
    rw [List.mapM_cons, List.flatMap_cons]
    exact ha.bind hrest

theorem forM_list {f : α → Pass Unit} {w : α → List Warning} {as : List α}
    (h : ∀ a ∈ as, Answers o (f a) () (w a)) : Answers o (as.forM f) () (as.flatMap w) := by
  induction as with
  | nil => exact .pure ()
  | cons a as ih =>
    obtain ⟨ha, has⟩ := List.forall_mem_cons.1 h
    rw [List.flatMap_cons]
    exact ha.bind (ih has)

end Answers

end Pass

namespace Form

/-- The names that a declaration binds, of whatever kind it is. -/
def boundNames {α : Type} : Form α → List String
  | definitions _ bindings _ => bindings.map (·.name)
  | declaration l => l.name.toList
  | _ => []

/-- The initializers of a declaration. -/
def initializers {α : Type} : Form α → List α
  | definitions _ bindings _ => bindings.filterMap (·.value)
  | _ => []

end Form

namespace Node

variable {n m c d : Node}

/-- The outermost declarations of a tree in source order. A nested scope keeps its own. -/
def outermost (n : Node) : List Node :=
  if n.form.isDeclaration then [n]
  else if n.opensScope then []
  else n.children.attach.flatMap fun c => outermost c.1
termination_by sizeOf n
decreasing_by exact sizeOf_lt_of_mem c.2

theorem outermost_eq (n : Node) : n.outermost =
    if n.form.isDeclaration then [n]
    else if n.opensScope then []
    else n.children.flatMap outermost := by
  have h := List.flatMap_map Subtype.val outermost n.children.attach
  rw [List.attach_map_subtype_val] at h
  rw [outermost, h]

/-- The second node stands in the first, with neither a scope nor a declaration around it there. -/
inductive Reaches : Node → Node → Prop
  | self (n : Node) : Reaches n n
  | child {n c d : Node} : n.opensScope = false → n.form.isDeclaration = false → c ∈ n.children →
    Reaches c d → Reaches n d

theorem mem_outermost : d ∈ n.outermost ↔ d.form.isDeclaration = true ∧ n.Reaches d := by
  constructor
  · intro hd
    induction n using Node.induct with
    | h n ih =>
      rw [outermost_eq] at hd
      split at hd
      · obtain rfl := List.mem_singleton.1 hd
        exact ⟨‹_›, .self d⟩
      · split at hd
        · cases hd
        · obtain ⟨c, hc, hd⟩ := List.mem_flatMap.1 hd
          obtain ⟨hdeclaration, hreaches⟩ := ih c hc hd
          exact ⟨hdeclaration, .child (by simpa using ‹¬n.opensScope = true›)
            (by simpa using ‹¬n.form.isDeclaration = true›) hc hreaches⟩
  · rintro ⟨hdeclaration, hreaches⟩
    induction hreaches with
    | self n =>
      rw [outermost_eq, if_pos hdeclaration]
      exact List.mem_singleton_self n
    | @child n c d hscope hn hc _ ih =>
      rw [outermost_eq, hn, hscope]
      exact List.mem_flatMap.2 ⟨c, hc, ih hdeclaration⟩

/-- Outermost declarations stand in source order, each once for each place it has in the tree. -/
theorem outermost_sublist (n : Node) : n.outermost.Sublist (n.visited fun _ => true) := by
  induction n using Node.induct with
  | h n ih =>
    rw [outermost_eq, visited_eq, if_pos rfl]
    split
    · exact .cons_cons n (List.nil_sublist _)
    · split
      · exact List.nil_sublist _
      · exact .cons n (List.Sublist.flatMap_right n.children ih)

/-- A declaration without its initializers. -/
def bared : Node → Node
  | ⟨.definitions kind bs hoisted, span⟩ => ⟨.definitions kind (bs.map Binding.bare) hoisted, span⟩
  | n => n

/-- The names that are declared in a tree outside nested scopes, in source order. -/
def boundNames (n : Node) : List String :=
  (n.visited (!·.opensScope)).flatMap (·.form.boundNames)

/-- Outside nested scopes, initializers are made of expressions only. -/
def initializesByValues (n : Node) : Bool :=
  (n.visited (!·.opensScope)).all fun d => d.form.initializers.all fun v =>
    (v.visited (!·.opensScope)).all (!·.isStatement)

theorem initializesByValues_iff : n.initializesByValues = true ↔
    ∀ d ∈ n.visited (!·.opensScope), ∀ v ∈ d.form.initializers,
      ∀ m ∈ v.visited (!·.opensScope), m.isStatement = false := by
  simp only [initializesByValues, List.all_eq_true, Bool.not_eq_true']

end Node

namespace Statements

variable {o : Options} {n : Node} {ns : List Node}

/-- A statement list up to its first jump. -/
def reachable (ns : List Node) : List Node :=
  ns.takeWhile (!·.isJump) ++ (ns.dropWhile (!·.isJump)).take 1

/-- A statement list behind its first jump. -/
def unreachable (ns : List Node) : List Node := (ns.dropWhile (!·.isJump)).drop 1

theorem reachable_append_unreachable (ns : List Node) : reachable ns ++ unreachable ns = ns := by
  rw [reachable, unreachable, List.append_assoc, List.take_append_drop,
    List.takeWhile_append_dropWhile]

/-- What has to stay of a statement that is dropped. -/
def salvage (n : Node) : List Node := n.outermost.map Node.bared

/-- What is reported of a statement that is dropped: each declaration that has to stay, at its
start. A function that is a statement of the list itself is not dropped. -/
def reports (n : Node) : List Warning :=
  if Hoist.isFunction n then []
  else (salvage n).map fun d => ⟨Finding.unreachableDeclarations.template, d.span.start⟩

/-- Searching for declarations and baring what is found is to list the outermost ones bare. -/
theorem keptDeclarations_eq (n : Node) : keptDeclarations n = salvage n := by
  induction n using Node.induct with
  | h n ih =>
    obtain ⟨form, span⟩ := n
    rw [keptDeclarations, Node.visited_eq, List.filterMap_cons, salvage, Node.outermost_eq]
    have hbelow : (form.children.flatMap (Node.visited searchesBelow)).filterMap keptDeclaration? =
        (form.children.flatMap Node.outermost).map Node.bared := by
      rw [List.filterMap_flatMap, List.map_flatMap]
      exact List.flatMap_congr ih
    cases form with
    | definitions | declaration | function | program => rfl
    | _ => exact hbelow

theorem survivors_eq : survivors = salvage := by
  funext n
  have hkept := keptDeclarations_eq n
  obtain ⟨form, span⟩ := n
  cases form with
  | declaration l =>
    rw [salvage, Node.outermost_eq]
    rfl
  | _ => exact hkept

theorem pruned_eq (ns : List Node) :
    pruned ns = reachable ns ++ (unreachable ns).flatMap salvage := by
  induction ns with
  | nil => rfl
  | cons n ns ih =>
    rw [pruned]
    by_cases hj : n.isJump = true
    · simp [reachable, unreachable, hj, survivors_eq]
    · rw [if_neg hj, ih]
      simp [reachable, unreachable, hj]

/-- What was salvaged is all that can be salvaged of it. -/
theorem salvage_of_mem {d : Node} (hd : d ∈ salvage n) : salvage d = [d] := by
  obtain ⟨c, hc, rfl⟩ := List.mem_map.1 hd
  obtain ⟨hc, -⟩ := Node.mem_outermost.1 hc
  obtain ⟨form, span⟩ := c
  rw [salvage, Node.outermost_eq]
  cases form with
  | definitions kind bs hoisted =>
    change [Node.bared (Node.bared _)] = _
    simp [Node.bared, Function.comp_def]
  | declaration => rfl
  | _ => cases hc

theorem pruned_pruned (ns : List Node) : pruned (pruned ns) = pruned ns := by
  induction ns with
  | nil => rfl
  | cons n ns ih =>
    by_cases hj : n.isJump = true
    · have hsame : ∀ m ∈ ns, (salvage m).flatMap salvage = salvage m := by
        intro m _
        rw [List.flatMap_congr fun d hd => salvage_of_mem hd, List.flatMap_singleton']
      rw [pruned, if_pos hj, pruned, if_pos hj, survivors_eq, List.flatMap_assoc,
        List.flatMap_congr hsame]
    · rw [pruned, if_neg hj, pruned, if_neg hj, ih]

theorem answers_pruneStatement (o : Options) (n : Node) :
    Pass.Answers o (pruneStatement o n) (salvage n) (reports n) := by
  have hsearch : Pass.Answers o
      ((keptDeclarations n).forM (fun d => Pass.warn o .unreachableDeclarations d.span.start) >>=
        fun _ => pure (keptDeclarations n)) (salvage n)
      ((salvage n).map fun d => ⟨Finding.unreachableDeclarations.template, d.span.start⟩) := by
    have hwarnings := Pass.Answers.forM_list fun d (_ : d ∈ salvage n) =>
      Pass.Answers.warn (o := o) .unreachableDeclarations d.span.start
    have hboth := hwarnings.bind (f := fun _ => pure (salvage n)) (.pure _)
    rw [List.append_nil, ← List.map_eq_flatMap] at hboth
    rwa [keptDeclarations_eq]
  obtain ⟨form, span⟩ := n
  cases form with
  | declaration l =>
    rw [salvage, Node.outermost_eq]
    exact .pure _
  | _ => exact hsearch

theorem answers_prune (o : Options) (ns : List Node) :
    Pass.Answers o (prune o ns) (pruned ns) ((unreachable ns).flatMap reports) := by
  induction ns with
  | nil => exact .pure []
  | cons n ns ih =>
    rw [prune, pruned]
    by_cases hj : n.isJump = true
    · have hmap := Pass.Answers.mapM_list fun m (_ : m ∈ ns) => answers_pruneStatement o m
      have hboth := hmap.bind (f := fun dss => pure (n :: dss.flatten)) (.pure _)
      have hrest : unreachable (n :: ns) = ns := by simp [unreachable, hj]
      rw [if_pos hj, if_pos hj, hrest, survivors_eq, List.flatMap_def]
      rwa [List.append_nil] at hboth
    · have hboth := ih.bind (f := fun ms => pure (n :: ms)) (.pure _)
      have hrest : unreachable (n :: ns) = unreachable ns := by simp [unreachable, hj]
      rw [if_neg hj, if_neg hj, hrest]
      rwa [List.append_nil] at hboth

theorem flatMap_boundNames_eq_nil {ms : List Node} (h : ∀ m ∈ ms, m.isStatement = false) :
    ms.flatMap (·.form.boundNames) = [] := by
  refine List.flatMap_eq_nil_iff.2 fun m hm => ?_
  have hm := h m hm
  obtain ⟨form, span⟩ := m
  cases form with
  | definitions | declaration => cases hm
  | _ => rfl

theorem boundNames_mk (form : Form Node) (span : Span) : (⟨form, span⟩ : Node).boundNames =
    form.boundNames ++ if form.opensScope then [] else form.children.flatMap Node.boundNames := by
  rw [Node.boundNames, Node.visited_eq, List.flatMap_cons]
  change form.boundNames ++
    (if (!form.opensScope) = true then form.children.flatMap (Node.visited _) else []).flatMap _ = _
  cases form.opensScope with
  | true => rfl
  | false => exact congrArg _ (List.flatMap_assoc ..)

/-- What is salvaged of a statement declares what the statement declares. -/
theorem boundNames_salvage (h : n.initializesByValues = true) :
    (salvage n).flatMap Node.boundNames = n.boundNames := by
  induction n using Node.induct with
  | h n ih =>
    have h := Node.initializesByValues_iff.1 h
    obtain ⟨form, span⟩ := n
    rw [boundNames_mk, salvage, Node.outermost_eq]
    have hbelow (hs : form.opensScope = false) :
        ((form.children.flatMap Node.outermost).map Node.bared).flatMap Node.boundNames =
          form.children.flatMap Node.boundNames := by
      rw [List.map_flatMap, List.flatMap_assoc]
      refine List.flatMap_congr fun c hc => ih c hc ?_
      refine Node.initializesByValues_iff.2 fun d hd => h d ?_
      rw [Node.visited_eq, if_pos (by simp [Node.opensScope, hs])]
      exact .tail _ (List.mem_flatMap.2 ⟨c, hc, hd⟩)
    cases form with
    | definitions kind bs hoisted =>
      have hvalues : (bs.filterMap (·.value)).flatMap Node.boundNames = [] := by
        refine List.flatMap_eq_nil_iff.2 fun v hv => flatMap_boundNames_eq_nil ?_
        refine h ⟨.definitions kind bs hoisted, span⟩ ?_ v hv
        rw [Node.visited_eq]
        exact .head _
      have hbare : (bs.map Binding.bare).filterMap (·.value) = [] := by simp
      change [(⟨.definitions kind (bs.map Binding.bare) hoisted, span⟩ : Node)].flatMap
        Node.boundNames = bs.map (·.name) ++ (bs.filterMap (·.value)).flatMap Node.boundNames
      rw [List.flatMap_singleton, boundNames_mk, hvalues]
      simp [Form.boundNames, Form.children, Form.opensScope, Function.comp_def]
    | declaration l =>
      change [(⟨.declaration l, span⟩ : Node)].flatMap Node.boundNames = _
      rw [List.flatMap_singleton, boundNames_mk]
    | function | program => rfl
    | _ => exact hbelow rfl

/-- Pruning keeps a list up to its first jump and, of what stands behind, the outermost declarations
in source order and bare. It reports those that had to be searched for, one by one. If initializers
are made of expressions only, no name gets lost; a second run changes nothing. -/
theorem prune_outcome (o : Options) (ns : List Node) (s : Session) :
    let kept := reachable ns ++ (unreachable ns).flatMap salvage
    (prune o ns).run s =
        (.ok kept, ⟨s.context, s.warnings ++ o.heard ((unreachable ns).flatMap reports)⟩) ∧
      (∀ n d : Node, d ∈ n.outermost ↔ d.form.isDeclaration = true ∧ n.Reaches d) ∧
      (∀ n : Node, n.outermost.Sublist (n.visited fun _ => true)) ∧
      ((∀ n ∈ ns, n.initializesByValues = true) →
        kept.flatMap Node.boundNames = ns.flatMap Node.boundNames) ∧
      ∀ o' s', ((prune o' kept).run s').1 = .ok kept := by
  intro kept
  have hkept : kept = pruned ns := (pruned_eq ns).symm
  refine ⟨?_, fun n d => Node.mem_outermost, Node.outermost_sublist, fun h => ?_, fun o' s' => ?_⟩
  · rw [hkept]
    exact answers_prune o ns s
  · have hsalvage : ((unreachable ns).flatMap salvage).flatMap Node.boundNames =
        (unreachable ns).flatMap Node.boundNames := by
      rw [List.flatMap_assoc]
      refine List.flatMap_congr fun n hn => boundNames_salvage (h n ?_)
      rw [← reachable_append_unreachable ns]
      exact List.mem_append_right _ hn
    calc kept.flatMap Node.boundNames
        = (reachable ns).flatMap Node.boundNames ++ (unreachable ns).flatMap Node.boundNames := by
          rw [List.flatMap_append, hsalvage]
      _ = ns.flatMap Node.boundNames := by
          rw [← List.flatMap_append, reachable_append_unreachable]
  · rw [answers_prune o' kept s', hkept, pruned_pruned]

/-- Behind a jump, of `function g(){}if(a){var y=2;function k(){}}` all three declarations stay, the
two within the branch with a warning. -/
theorem prune_branch_behind_jump :
    let g := Build.declaration "g" [] []
    let k := Build.declaration "k" [] []
    let branch := Build.branch (Build.identifier "a")
      (Build.block [Build.var [("y", some (Build.number 2))], k]) none
    let ns := [Build.leave none, g, branch]
    let kept := [Build.leave none, g, Build.var [("y", none)], k]
    let w : Warning := ⟨Finding.unreachableDeclarations.template, default⟩
    (∀ n ∈ ns, n.initializesByValues = true) ∧
      (prune .full ns).run .initial = (.ok kept, ⟨[], [w, w]⟩) ∧
      kept.flatMap Node.boundNames = ns.flatMap Node.boundNames ∧
      ((prune .full kept).run .initial).1 = .ok kept := by
  intro g k branch ns kept w
  have hvalues : ∀ n ∈ ns, n.initializesByValues = true := List.all_eq_true.1 (by cbv)
  have hkept : reachable ns ++ (unreachable ns).flatMap salvage = kept := by cbv
  have hreports : (unreachable ns).flatMap reports = [w, w] := by cbv
  obtain ⟨hrun, -, -, hnames, hagain⟩ := prune_outcome .full ns .initial
  rw [hkept, hreports] at hrun
  rw [hkept] at hnames hagain
  exact ⟨hvalues, hrun, hnames hvalues, hagain _ _⟩

end Statements

end ScriptMinifier
