import Mathlib.Data.Nat.Find
import ScriptMinifier.Proofs.Audit
import ScriptMinifier.Tree.Build

/-!
The calls that an expression makes. A call is answered by what has been called before. The rules for
truth drop operands with the calls these make; an expression keeps its calls in all worlds if and
only if no operand that is dropped makes one in any.

To see that a lost call shows, take the least position at which a call is lost in some world, and
let calls from there on be answered as if none had been made since. In this world what is lost
changes no later answer, so the calls of the outcome are those of the expression without the lost.
-/

namespace ScriptMinifier

open Pass (Gives)

/-- A call of a value with arguments. It is lost if it is made for an operand that is dropped. -/
structure Event where
  values : List Primitive
  lost : Bool

/-- A computation that knows the calls made before it and makes further calls. -/
def Calling (α : Type) : Type := List Event → α × List Event

namespace Calling

variable {α β γ δ : Type}

instance : Monad Calling where
  pure a _ := (a, [])
  bind x f h :=
    let (a, es) := x h
    let (b, fs) := f a (h ++ es)
    (b, es ++ fs)

theorem pure_eq (a : α) (h : List Event) : (pure a : Calling α) h = (a, []) := rfl

theorem bind_eq (x : Calling α) (f : α → Calling β) (h : List Event) :
    (x >>= f) h = ((f (x h).1 (h ++ (x h).2)).1, (x h).2 ++ (f (x h).1 (h ++ (x h).2)).2) := rfl

instance : LawfulMonad Calling := by
  refine LawfulMonad.mk' _ ?_ ?_ ?_
  · intro α x
    funext h
    change ((x h).1, (x h).2 ++ []) = x h
    rw [List.append_nil]
  · intro α β a f
    funext h
    rw [bind_eq, pure_eq, List.append_nil]
    rfl
  · intro α β γ x f g
    funext h
    simp only [bind_eq, List.append_assoc]

theorem map_eq (f : α → β) (x : Calling α) (h : List Event) :
    (f <$> x) h = (f (x h).1, (x h).2) := by
  rw [map_eq_pure_bind, bind_eq, pure_eq, List.append_nil]

/-- The calls that a computation makes if none were made before. -/
def calls (x : Calling α) : List (List Primitive) := (x []).2.map (·.values)

/-- Runs an operand that is dropped. -/
def drop (x : Calling α) : Calling α := fun h =>
  let (v, es) := x h
  (v, es.map fun e => { e with lost := true })

end Calling

/-- What answers an expression, by the calls made before, and what `in` and `instanceof` come to. -/
structure World where
  answer : List (List Primitive) → Action → List Primitive → Primitive
  test : BinaryOperator → Primitive → Primitive → Bool

namespace World

def interpretation (w : World) : Interpretation Calling where
  act a vs h := (w.answer (h.map (·.values)) a vs, if a = .call then [⟨vs, false⟩] else [])
  test := w.test

/-- The world that answers as if no calls had been made but the first `k`. -/
def frozen (w : World) (k : Nat) : World := { w with answer := fun h => w.answer (h.take k) }

end World

namespace Node

variable (w : World) (o : Options) (n : Node)

/-- The calls that an expression makes, in order. -/
def calls : List (List Primitive) := (n.eval w.interpretation).calls

/-- The calls of an expression that is reduced for its value, those of dropped operands marked. -/
def events : List Event := (n.audit w.interpretation Calling.drop o false []).2

/-- The calls of an expression that are made for dropped operands. -/
def lostCalls : List (List Primitive) := ((n.events w o).filter (·.lost)).map (·.values)

end Node

/-- The calls of a list that are not lost. -/
def kept (es : List Event) : List (List Primitive) := (es.filter (!·.lost)).map (·.values)

theorem kept_append (es fs : List Event) : kept (es ++ fs) = kept es ++ kept fs := by
  rw [kept, List.filter_append, List.map_append]
  rfl

/-- Among the first calls none is lost if none of them is. -/
theorem take_kept {es : List Event} {n : Nat} (h : ¬∃ e ∈ es.take n, e.lost = true) :
    (kept es).take n = (es.map Event.values).take n := by
  induction es generalizing n with
  | nil => rfl
  | cons e es ih =>
    cases n with
    | zero => rfl
    | succ n =>
      have he : e.lost = false := by
        by_contra hne
        exact h ⟨e, by simp, by simpa using hne⟩
      have hes : ¬∃ e ∈ es.take n, e.lost = true := by
        rintro ⟨e', he', hl⟩
        exact h ⟨e', by simp [he'], hl⟩
      have hcons : kept (e :: es) = e.values :: kept es := by
        simp [kept, he]
      rw [hcons, List.map_cons, List.take_succ_cons, List.take_succ_cons, ih hes]

/-- The first `k` calls of a list. -/
def early (k : Nat) (es : List Event) : List (List Primitive) := (es.map Event.values).take k

theorem early_append {k : Nat} {g h es fs : List Event} (hgh : early k g = early k h)
    (he : ¬∃ e ∈ es.take (k - g.length), e.lost = true) (hfs : fs.map Event.values = kept es) :
    early k (g ++ es) = early k (h ++ fs) := by
  have hlen : k - g.length = k - h.length := by
    have := congrArg List.length hgh
    simp only [early, List.length_take, List.length_map] at this
    omega
  simp only [early, List.map_append, List.take_append, List.length_map]
  rw [hfs, ← hlen, take_kept he]
  exact congrArg (· ++ _) hgh

namespace Comparison

/-- The first `k` calls are the same, and so is what comes of them. -/
def first (k : Nat) : Comparison Calling Calling where
  rel V x y := ∀ h n, h.length + n ≤ k →
    (x h).2.take n = (y h).2.take n ∧ ((x h).2.length < n → V (x h).1 (y h).1)
  rel_pure hV _ _ _ := ⟨rfl, fun _ => hV⟩
  rel_bind {_ _ _ _ V W x y f g} hx hf h n hn := by
    obtain ⟨htake, hV⟩ := hx h n hn
    rw [Calling.bind_eq, Calling.bind_eq]
    by_cases hlt : (x h).2.length < n
    · have hsame : (y h).2 = (x h).2 := by
        rw [List.take_of_length_le (Nat.le_of_lt hlt)] at htake
        have hlen := congrArg List.length htake
        rw [List.length_take] at hlen
        rw [htake, List.take_of_length_le (by omega)]
      have hrest := hf _ _ (hV hlt) (h ++ (x h).2) (n - (x h).2.length)
        (by rw [List.length_append]; omega)
      rw [hsame]
      dsimp only
      rw [List.take_append, List.take_append, hrest.1, List.length_append]
      exact ⟨rfl, fun hlen => hrest.2 (by omega)⟩
    · have hlen := congrArg List.length htake
      rw [List.length_take, List.length_take] at hlen
      dsimp only
      rw [List.take_append_of_le_length (by omega), List.take_append_of_le_length (by omega),
        List.length_append]
      exact ⟨htake, fun h => absurd h (by omega)⟩
  rel_of_map hx h n hn := by
    have hmap := hx h n hn
    rw [Calling.map_eq] at hmap
    exact hmap

/-- The same calls are made, whether for operands that are dropped or not. -/
def alike : Comparison Calling Calling where
  rel V x y := ∀ g h, g.map Event.values = h.map Event.values →
    V (x g).1 (y h).1 ∧ (x g).2.map Event.values = (y h).2.map Event.values
  rel_pure hV _ _ _ := ⟨hV, rfl⟩
  rel_bind {_ _ _ _ V W x y f g} hx hf i j hij := by
    obtain ⟨hV, hes⟩ := hx i j hij
    obtain ⟨hW, hfs⟩ := hf _ _ hV (i ++ (x i).2) (j ++ (y j).2) (by
      rw [List.map_append, List.map_append, hij, hes])
    rw [Calling.bind_eq, Calling.bind_eq]
    refine ⟨hW, ?_⟩
    rw [List.map_append, List.map_append, hes, hfs]
  rel_of_map hx g h hgh := by
    have hmap := hx g h hgh
    rw [Calling.map_eq] at hmap
    exact hmap

/-- As long as no call is lost among the first `k`, the second computation makes the calls of the
first that are not lost. Both start with the same first `k` calls behind them. -/
def keeping (k : Nat) : Comparison Calling Calling where
  rel V x y := ∀ g h, early k g = early k h →
    (∃ e ∈ (x g).2.take (k - g.length), e.lost = true) ∨
      (V (x g).1 (y h).1 ∧ (y h).2.map Event.values = kept (x g).2)
  rel_pure hV _ _ _ := .inr ⟨hV, rfl⟩
  rel_bind {_ _ _ _ V W x y f g} hx hf i j hij := by
    rw [Calling.bind_eq, Calling.bind_eq]
    dsimp only
    rw [List.take_append]
    by_cases he : ∃ e ∈ (x i).2.take (k - i.length), e.lost = true
    · obtain ⟨e, he, hl⟩ := he
      exact .inl ⟨e, List.mem_append_left _ he, hl⟩
    · obtain ⟨hV, hes⟩ := (hx i j hij).resolve_left he
      rcases hf _ _ hV _ _ (early_append hij he hes) with ⟨e, hmem, hl⟩ | ⟨hW, hfs⟩
      · refine .inl ⟨e, List.mem_append_right _ ?_, hl⟩
        rwa [List.length_append, ← Nat.sub_sub] at hmem
      · refine .inr ⟨hW, ?_⟩
        rw [List.map_append, hes, hfs, kept_append]
  rel_of_map hx g h hgh := by
    have hmap := hx g h hgh
    rw [Calling.map_eq] at hmap
    exact hmap

variable {w : World} {k : Nat}

theorem shares_alike : alike.Shares w.interpretation w.interpretation := by
  refine ⟨fun a vs g h hgh => ⟨?_, rfl⟩, rfl⟩
  change w.answer (g.map Event.values) a vs = w.answer (h.map Event.values) a vs
  rw [hgh]

/-- What a world answers to the first calls it answers also when it is frozen after them. -/
theorem shares_first :
    (first (k + 1)).Shares w.interpretation (w.frozen k).interpretation := by
  refine ⟨fun a vs h n hn => ?_, rfl⟩
  by_cases hzero : n = 0
  · subst hzero
    exact ⟨rfl, fun h => absurd h (Nat.not_lt_zero _)⟩
  · have hall : (h.map Event.values).take k = h.map Event.values :=
      List.take_of_length_le (by rw [List.length_map]; omega)
    have hact : (w.frozen k).interpretation.act a vs h = w.interpretation.act a vs h := by
      change (w.answer ((h.map Event.values).take k) a vs, _) = _
      rw [hall]
      rfl
    rw [hact]
    exact ⟨rfl, fun _ => rfl⟩

theorem shares_keeping :
    (keeping k).Shares (w.frozen k).interpretation (w.frozen k).interpretation := by
  refine ⟨fun a vs g h hgh => .inr ⟨?_, ?_⟩, rfl⟩
  · change w.answer (early k g) a vs = w.answer (early k h) a vs
    rw [hgh]
  · change (if a = .call then [⟨vs, false⟩] else [] : List Event).map Event.values =
      kept (if a = .call then [⟨vs, false⟩] else [])
    split <;> rfl

theorem drops_keeping : (keeping k).Drops Calling.drop := by
  have hnone (es : List Event) : kept (es.map fun e => { e with lost := true }) = [] := by
    simp [kept]
  refine ⟨fun {V x} h i j hij => ?_, fun _ i j _ => .inr ⟨trivial, (hnone _).symm⟩⟩
  rcases h i j hij with ⟨e, he, _⟩ | ⟨hV, _⟩
  · refine .inl ⟨{ e with lost := true }, ?_, rfl⟩
    change _ ∈ ((x i).2.map fun e => { e with lost := true }).take (k - i.length)
    rw [← List.map_take]
    exact List.mem_map_of_mem he
  · exact .inr ⟨hV, (hnone _).symm⟩

end Comparison

namespace Node

variable {w : World} {o : Options} {n m : Node} {k : Nat}

/-- The calls of an expression are those that its audit lists. -/
theorem calls_eq_events : n.calls w = (n.events w o).map (·.values) := by
  have hdrop (x x' : Calling Primitive) (h : Comparison.alike.rel Eq x x') :
      Comparison.alike.rel Eq (Calling.drop x) (id x') := by
    intro i j hij
    obtain ⟨hv, hes⟩ := h i j hij
    refine ⟨hv, ?_⟩
    change ((x i).2.map fun e => { e with lost := true }).map Event.values = _
    rw [List.map_map]
    exact hes
  have hrel := Comparison.shares_alike.rel_audit (I := w.interpretation) hdrop o n false
  rw [audit_id] at hrel
  exact (hrel [] [] rfl).2.symm

theorem events_frozen : (n.events (w.frozen k) o).take (k + 1) = (n.events w o).take (k + 1) := by
  have hdrop (x x' : Calling Primitive) (h : (Comparison.first (k + 1)).rel Eq x x') :
      (Comparison.first (k + 1)).rel Eq (Calling.drop x) (Calling.drop x') := by
    intro i j hij
    obtain ⟨htake, hv⟩ := h i j hij
    change ((x i).2.map _).take j = ((x' i).2.map _).take j ∧ (((x i).2.map _).length < j → _)
    rw [← List.map_take, ← List.map_take, htake, List.length_map]
    exact ⟨rfl, hv⟩
  have hrel := Comparison.shares_first.rel_audit (I := w.interpretation) hdrop o n false
  exact (hrel [] (k + 1) (by simp)).1.symm

theorem calls_frozen : (n.calls (w.frozen k)).take (k + 1) = (n.calls w).take (k + 1) := by
  rw [calls_eq_events (o := .full), calls_eq_events (o := .full), ← List.map_take, events_frozen,
    List.map_take]

/-- A run with few calls does not see that the world is frozen. -/
theorem calls_frozen_of_length_le (h : (n.calls w).length ≤ k) :
    n.calls (w.frozen k) = n.calls w := by
  have htake := calls_frozen (w := w) (n := n) (k := k)
  rw [List.take_of_length_le (l := n.calls w) (by omega)] at htake
  have hlen := congrArg List.length htake
  rw [List.length_take] at hlen
  rwa [List.take_of_length_le (by omega)] at htake

theorem lostCalls_eq_nil_iff :
    n.lostCalls w o = [] ↔ ∀ e ∈ n.events w o, e.lost = false := by
  simp [lostCalls]

theorem kept_of_lostCalls (h : n.lostCalls w o = []) : kept (n.events w o) = n.calls w := by
  rw [calls_eq_events (o := o), kept, List.filter_eq_self.2]
  intro e he
  rw [lostCalls_eq_nil_iff.1 h e he]
  rfl

/-- If calls are lost, then in some world that is frozen just before the first of them. -/
theorem exists_first_lost (h : n.lostCalls w o ≠ []) :
    ∃ (w : World) (k : Nat), (∃ e ∈ n.events (w.frozen k) o, e.lost = true) ∧
      ¬∃ e ∈ (n.events (w.frozen k) o).take k, e.lost = true := by
  classical
  have hex : ∃ (k : Nat) (w : World), ∃ e ∈ (n.events w o).take (k + 1), e.lost = true := by
    rw [Ne, lostCalls_eq_nil_iff] at h
    push Not at h
    obtain ⟨e, he, hl⟩ := h
    refine ⟨(n.events w o).length, w, e, ?_, by simpa using hl⟩
    rwa [List.take_of_length_le (by omega)]
  obtain ⟨w', e, he, hl⟩ := Nat.find_spec hex
  refine ⟨w', Nat.find hex, ⟨e, ?_, hl⟩, fun hearly => ?_⟩
  · rw [← events_frozen] at he
    exact List.mem_of_mem_take he
  · cases hk : Nat.find hex with
    | zero =>
      rw [hk] at hearly
      obtain ⟨_, h0, _⟩ := hearly
      cases h0
    | succ j =>
      rw [hk] at hearly
      exact Nat.find_min hex (m := j) (by omega) ⟨_, hearly⟩

end Node

/-- An expression is reduced, `comparisons` off, to one that makes its calls whatever answers them
if and only if no dropped operand makes a call, whatever answers it. -/
theorem minify_preserves_calls_iff (o : Options) (e : Node) (he : e.BuiltOf Form.ScopeFits)
    (ho : o.on .comparisons = false) :
    ∃ e', (minify o e).result = .ok e' ∧
      ((∀ w, e'.calls w = e.calls w) ↔ ∀ w, e.lostCalls w o = []) := by
  have hsound (w : World) :
      e.BuiltOf fun form => o.Sound w.interpretation form ∧ form.ScopeFits := by
    refine he.mono fun form h => ⟨fun hc => ?_, h⟩
    rw [ho] at hc
    cases hc
  obtain ⟨e', hkeeping, hrun⟩ := Gives.ok_forall (fun i : World × Nat =>
    (Comparison.gives_audited (o := o) (Comparison.shares_keeping (w := i.1) (k := i.2))
      (fun _ => Comparison.drops_keeping) (hsound _) false)) ⟨⟨fun _ _ _ => .undefined, fun _ _ _ => true⟩, 0⟩ [] rfl
  obtain ⟨_, hresult⟩ := hrun [] rfl []
  have hkept (w : World) (k : Nat)
      (hk : ¬∃ c ∈ (e.events (w.frozen k) o).take k, c.lost = true) :
      e'.calls (w.frozen k) = kept (e.events (w.frozen k) o) :=
    (((hkeeping ⟨w, k⟩).2 [] [] rfl).resolve_left hk).2
  refine ⟨e', congrArg Prod.fst hresult, fun hsame w => ?_, fun hlost w => ?_⟩
  · by_contra hlost
    obtain ⟨w, k, ⟨c, hc, hl⟩, hk⟩ := Node.exists_first_lost hlost
    have hlt : (kept (e.events (w.frozen k) o)).length < (e.events (w.frozen k) o).length := by
      rw [kept, List.length_map]
      exact List.length_filter_lt_length_iff_exists.2 ⟨c, hc, by simp [hl]⟩
    rw [← hkept w k hk, hsame, Node.calls_eq_events (o := o), List.length_map] at hlt
    exact absurd hlt (Nat.lt_irrefl _)
  · let k := max (e'.calls w).length (e.calls w).length
    have hnone : ¬∃ c ∈ (e.events (w.frozen k) o).take k, c.lost = true := by
      rintro ⟨c, hc, hl⟩
      rw [Node.lostCalls_eq_nil_iff.1 (hlost _) c (List.mem_of_mem_take hc)] at hl
      cases hl
    have hcalls := (hkept w k hnone).trans (Node.kept_of_lostCalls (hlost _))
    rwa [Node.calls_frozen_of_length_le (Nat.le_max_left _ _),
      Node.calls_frozen_of_length_le (Nat.le_max_right _ _)] at hcalls

/-- `f() || typeof a`. -/
theorem minify_typeof_preserves_calls_iff :
    let e := Build.binary .or (Build.call "f" []) (Build.unary .typeOf (Build.identifier "a"))
    let o := Options.full.set .comparisons false
    ∃ e', (minify o e).result = .ok e' ∧
      ((∀ w, e'.calls w = e.calls w) ↔ ∀ w, e.lostCalls w o = []) := by
  intro e o
  have hname (s : String) : (Build.identifier s).BuiltOf Form.ScopeFits :=
    .mk rfl (by simp [Form.ScopeFits, Form.opensScope]) fun _ c hc => by cases hc
  refine minify_preserves_calls_iff o e (.mk rfl (by simp [Form.ScopeFits, Form.opensScope]) fun _ c hc => ?_) rfl
  obtain rfl | rfl : c = Build.call "f" [] ∨ c = Build.unary .typeOf (Build.identifier "a") := by
    simpa [Form.children] using hc
  · refine .mk rfl (by simp [Form.ScopeFits, Form.opensScope]) fun _ c hc => ?_
    obtain rfl : c = Build.identifier "f" := by simpa [Form.children] using hc
    exact hname "f"
  · refine .mk rfl (by simp [Form.ScopeFits, Form.opensScope]) fun _ c hc => ?_
    obtain rfl : c = Build.identifier "a" := by simpa [Form.children] using hc
    exact hname "a"

/-- The call in `!typeof f()` is lost. -/
theorem minify_not_typeof_loses_call :
    let e := Build.not (Build.unary .typeOf (Build.call "f" []))
    let o := Options.full.set .comparisons false
    ∃ e' w, (minify o e).result = .ok e' ∧ e'.calls w ≠ e.calls w := by
  intro e o
  have hresult : (minify o e).result = .ok (Build.not (Build.number 1.0)) := by
    simp only [minify, e, Build.not, Build.unary, Build.call, Build.identifier, Form.node]
    iterate 4
      rw [Node.reduce_eq]
      simp only [Node.work, Node.reduceBy, Node.form_mk, Node.span_mk, Hoist.surfaceForm,
        Form.traverse]
    rfl
  let w : World := ⟨fun _ _ _ => .undefined, fun _ _ _ => true⟩
  have hcalls : e.calls w = [[.undefined]] := by
    simp only [Node.calls, e, Build.not, Build.unary, Build.call, Build.identifier, Form.node,
      Node.eval_eq, Node.form_mk, Form.map]
    rfl
  have hnone : (Build.not (Build.number 1.0)).calls w = [] := by
    simp only [Node.calls, Build.not, Build.number, Form.node, Node.eval_eq, Node.form_mk, Form.map,
      Build.unary]
    rfl
  refine ⟨_, w, hresult, ?_⟩
  rw [hcalls, hnone]
  simp

end ScriptMinifier
