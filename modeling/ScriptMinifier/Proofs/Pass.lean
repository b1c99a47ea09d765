import Mathlib.Data.List.Forall2
import ScriptMinifier.Session

/-!
What a step of a run comes to. `Pass.Gives` speaks of a step by its context alone: it comes to the
same end whatever warnings came before, and leaves the context as it was. `Pass.Yields` says the
same of a step inside an enclosure, of which it may change the role. What holds of any judgment that
is told step by step is said of `Pass.Compositional`, and of `Pass.Grounded` where faults, warnings
and the context come in.
-/

namespace ScriptMinifier

namespace Pass

variable {α β : Type} {F : Fault → Prop} {e : EnclosureKind} {C C' : Context → Prop}

theorem run_bind (p : Pass α) (f : α → Pass β) (s : Session) :
    (p >>= f).run s = ExceptT.bindCont f (p.run s).1 (p.run s).2 := rfl

theorem run_within (e : Enclosure) (p : Pass α) (s : Session) :
    (within e p).run s =
      ((p.run ⟨e :: s.context, s.warnings⟩).1, ⟨(p.run ⟨e :: s.context, s.warnings⟩).2.context.tail,
        (p.run ⟨e :: s.context, s.warnings⟩).2.warnings⟩) := rfl

/-- An end with a result of which `Q` holds, or in a fault of which `F` holds. -/
def Ends (F : Fault → Prop) (Q : α → Prop) : Except Fault α → Prop
  | .ok a => Q a
  | .error f => F f

/-- In all contexts of a class a step comes to one end, and the context is as it was. -/
def Gives (F : Fault → Prop) (C : Context → Prop) (p : Pass α) (Q : α → Prop) : Prop :=
  ∃ r, Ends F Q r ∧ ∀ c, C c → ∀ ws, ∃ ws', p.run ⟨c, ws⟩ = (r, ⟨c, ws'⟩)

/-- As `Gives`, for a step inside an enclosure whose role neither matters nor stays. -/
def Yields (F : Fault → Prop) (e : EnclosureKind) (C : Context → Prop) (p : Pass α)
    (Q : α → Prop) : Prop :=
  ∃ r, Ends F Q r ∧ ∀ c, C c → ∀ role ws, ∃ role' ws',
    p.run ⟨⟨e, role⟩ :: c, ws⟩ = (r, ⟨⟨e, role'⟩ :: c, ws'⟩)

/-- The contexts of a child that has a role in an enclosure. -/
def Inside (e : EnclosureKind) (role : Role) (C : Context → Prop) (c : Context) : Prop :=
  ∃ c₀, C c₀ ∧ c = ⟨e, role⟩ :: c₀

/-- A judgment on steps and their results that can be told step by step. -/
structure Compositional (J : (α : Type) → Pass α → (α → Prop) → Prop) : Prop where
  pure {α : Type} {a : α} {Q : α → Prop} : Q a → J α (pure a) Q
  bind {α β : Type} {p : Pass α} {f : α → Pass β} {Q : α → Prop} {P : β → Prop} :
    J α p Q → (∀ a, Q a → J β (f a) P) → J β (p >>= f) P

namespace Compositional

variable {J : (α : Type) → Pass α → (α → Prop) → Prop} {f : α → Pass β} {R : α → β → Prop}

theorem mapM_list (hJ : Compositional J) {as : List α} (h : ∀ a ∈ as, J β (f a) (R a)) :
    J (List β) (as.mapM f) (List.Forall₂ R as) := by
  induction as with
  | nil => exact hJ.pure .nil
  | cons a as ih =>
    have htail := ih fun a ha => h a (List.mem_cons_of_mem _ ha)
    rw [List.mapM_cons]
    apply hJ.bind (h a List.mem_cons_self)
    intro b hb
    apply hJ.bind htail
    intro bs hbs
    exact hJ.pure (.cons hb hbs)

theorem mapM_option (hJ : Compositional J) {a? : Option α} (h : ∀ a ∈ a?, J β (f a) (R a)) :
    J (Option β) (a?.mapM f) (Option.Rel R a?) := by
  cases a? with
  | none => exact hJ.pure .none
  | some a =>
    apply hJ.bind (h a rfl)
    intro b hb
    exact hJ.pure (.some hb)

theorem mono (hJ : Compositional J) {p : Pass α} {Q Q' : α → Prop} (h : J α p Q)
    (hQ : ∀ a, Q a → Q' a) : J α p Q' := by
  have hbind := hJ.bind h fun a ha => hJ.pure (hQ a ha)
  rwa [bind_pure] at hbind

end Compositional

/-- A judgment by which the steps of a rule are told: faults are of `F`, warnings stand at positions
of `P`, and `truth` says whether only the truth of the node at hand matters. -/
structure Grounded (truth : Bool) (F : Fault → Prop) (P : Position → Prop)
    (J : (α : Type) → Pass α → (α → Prop) → Prop) : Prop extends Compositional J where
  attempt {α : Type} {r : Except Fault α} {Q : α → Prop} :
    (∀ a, r = .ok a → Q a) → (∀ f, r = .error f → F f) → J α (Pass.attempt r) Q
  warn {o : Options} {finding : Finding} {at_ : Position} :
    P at_ → J Unit (Pass.warn o finding at_) fun _ => True
  onlyTruthMatters {α : Type} {f : Bool → Pass α} {Q : α → Prop} :
    J α (f truth) Q → J α (Pass.context >>= fun c => f c.onlyTruthMatters) Q

theorem Grounded.warn_bind {truth : Bool} {P : Position → Prop}
    {J : (α : Type) → Pass α → (α → Prop) → Prop} (hJ : Grounded truth F P J) {o : Options}
    {finding : Finding} {at_ : Position} {f : Unit → Pass β} {Q : β → Prop} (hat : P at_)
    (h : J β (f ()) Q) : J β (Pass.warn o finding at_ >>= f) Q :=
  hJ.bind (hJ.warn hat) fun _ _ => h

theorem Ends.mono {F' : Fault → Prop} {Q Q' : α → Prop} {r : Except Fault α} (h : Ends F Q r)
    (hF : ∀ f, F f → F' f) (hQ : ∀ a, Q a → Q' a) : Ends F' Q' r := by
  cases r with
  | ok a => exact hQ a h
  | error f => exact hF f h

namespace Gives

variable {p : Pass α} {Q Q' : α → Prop}

theorem mono (h : Gives F C p Q) (hQ : ∀ a, Q a → Q' a) : Gives F C p Q' := by
  obtain ⟨r, hr, hrun⟩ := h
  exact ⟨r, hr.mono (fun _ hf => hf) hQ, hrun⟩

theorem narrow (h : Gives F C p Q) (hC : ∀ c, C' c → C c) : Gives F C' p Q := by
  obtain ⟨r, hr, hrun⟩ := h
  exact ⟨r, hr, fun c hc => hrun c (hC c hc)⟩

/-- The result is the one that every context of the class leads to. -/
theorem results (h : Gives F C p Q) :
    Gives F C p fun a => Q a ∧ ∀ c, C c → ∀ ws, (p.run ⟨c, ws⟩).1 = .ok a := by
  obtain ⟨r, hr, hrun⟩ := h
  refine ⟨r, ?_, hrun⟩
  cases r with
  | ok a =>
    refine ⟨hr, fun c hc ws => ?_⟩
    obtain ⟨ws', h'⟩ := hrun c hc ws
    rw [h']
  | error f => exact hr

/-- The result is the one that any context of the class leads to. -/
theorem result (h : Gives F C p Q) (c : Context) (hc : C c) :
    Gives F C p fun a => Q a ∧ ∀ ws, (p.run ⟨c, ws⟩).1 = .ok a :=
  h.results.mono fun _ ha => ⟨ha.1, ha.2 c hc⟩

/-- What is known of a step in a context that there is, is known at once. -/
theorem and (h : Gives F C p Q) (h' : Gives F C p Q') {c : Context} (hc : C c) :
    Gives F C p fun a => Q a ∧ Q' a := by
  obtain ⟨r, hr, hrun⟩ := h
  refine ⟨r, ?_, hrun⟩
  cases r with
  | ok a =>
    obtain ⟨ws, hok⟩ := hrun c hc []
    obtain ⟨r', hr', hrun'⟩ := h'
    obtain ⟨ws', hsame⟩ := hrun' c hc []
    obtain ⟨rfl, -⟩ := Prod.mk.inj (hok.symm.trans hsame)
    exact ⟨hr, hr'⟩
  | error f => exact hr

/-- What is known of a step holds of the result of each run. -/
theorem of_run (h : Gives F C p Q) {c : Context} (hc : C c) {ws : List Warning} {a : α}
    (hrun : (p.run ⟨c, ws⟩).1 = .ok a) : Q a := by
  obtain ⟨r, hr, hruns⟩ := h
  obtain ⟨ws', h'⟩ := hruns c hc ws
  rw [h'] at hrun
  obtain rfl : r = .ok a := hrun
  exact hr

/-- Where no fault can occur there is a result. -/
theorem ok (h : Gives (fun _ => False) C p Q) :
    ∃ a, Q a ∧ ∀ c, C c → ∀ ws, ∃ ws', p.run ⟨c, ws⟩ = (.ok a, ⟨c, ws'⟩) := by
  obtain ⟨r, hr, hrun⟩ := h
  cases r with
  | ok a => exact ⟨a, hr, hrun⟩
  | error f => exact hr.elim

/-- A step that cannot end in a fault has one result for all that is known of it. -/
theorem ok_forall {ι : Sort*} {Q : ι → α → Prop} (h : ∀ i, Gives (fun _ => False) C p (Q i))
    (i₀ : ι) (c₀ : Context) (hc₀ : C c₀) :
    ∃ a, (∀ i, Q i a) ∧ ∀ c, C c → ∀ ws, ∃ ws', p.run ⟨c, ws⟩ = (.ok a, ⟨c, ws'⟩) := by
  obtain ⟨a, _, hrun⟩ := (h i₀).ok
  refine ⟨a, fun i => ?_, hrun⟩
  obtain ⟨b, hb, hrun'⟩ := (h i).ok
  obtain ⟨_, ha⟩ := hrun c₀ hc₀ []
  obtain ⟨_, hb'⟩ := hrun' c₀ hc₀ []
  rw [ha] at hb'
  obtain ⟨hab, -⟩ := Prod.mk.inj hb'
  obtain rfl := Except.ok.inj hab
  exact hb

theorem within {role : Role} (h : Yields F e C p Q) : Gives F C (within ⟨e, role⟩ p) Q := by
  obtain ⟨r, hr, hrun⟩ := h
  refine ⟨r, hr, fun c hc ws => ?_⟩
  obtain ⟨role', ws', h'⟩ := hrun c hc role ws
  refine ⟨ws', ?_⟩
  rw [run_within, h']
  rfl

end Gives

namespace Yields

variable {p : Pass α} {Q Q' : α → Prop}

theorem mono (h : Yields F e C p Q) (hQ : ∀ a, Q a → Q' a) : Yields F e C p Q' := by
  obtain ⟨r, hr, hrun⟩ := h
  exact ⟨r, hr.mono (fun _ hf => hf) hQ, hrun⟩

protected theorem pure {a : α} (h : Q a) : Yields F e C (pure a) Q :=
  ⟨.ok a, h, fun _ _ role ws => ⟨role, ws, rfl⟩⟩

protected theorem bind {f : α → Pass β} {P : β → Prop} (h : Yields F e C p Q)
    (hf : ∀ a, Q a → Yields F e C (f a) P) : Yields F e C (p >>= f) P := by
  obtain ⟨r, hr, hrun⟩ := h
  cases r with
  | error f' =>
    refine ⟨.error f', hr, fun c hc role ws => ?_⟩
    obtain ⟨role', ws', h'⟩ := hrun c hc role ws
    refine ⟨role', ws', ?_⟩
    rw [run_bind, h']
    rfl
  | ok a =>
    obtain ⟨r', hr', hrun'⟩ := hf a hr
    refine ⟨r', hr', fun c hc role ws => ?_⟩
    obtain ⟨role₁, ws₁, h₁⟩ := hrun c hc role ws
    obtain ⟨role₂, ws₂, h₂⟩ := hrun' c hc role₁ ws₁
    refine ⟨role₂, ws₂, ?_⟩
    rw [run_bind, h₁]
    exact h₂

theorem attempt {r : Except Fault α} (hQ : ∀ a, r = .ok a → Q a)
    (hF : ∀ f, r = .error f → F f) : Yields F e C (attempt r) Q := by
  refine ⟨r, ?_, fun _ _ role ws => ⟨role, ws, rfl⟩⟩
  cases r with
  | ok a => exact hQ a rfl
  | error f => exact hF f rfl

protected theorem warn {o : Options} {finding : Finding} {at_ : Position} :
    Yields F e C (warn o finding at_) fun _ => True := by
  refine ⟨.ok (), trivial, fun c _ role ws => ?_⟩
  unfold Pass.warn report
  split
  · exact ⟨role, ws ++ [⟨finding.template, at_⟩], rfl⟩
  · exact ⟨role, ws, rfl⟩

/-- A step may look at its context, but not at its own role. -/
theorem context {f : Context → Pass β} {g : Pass β} {P : β → Prop}
    (hf : ∀ c, C c → ∀ role, f (⟨e, role⟩ :: c) = g) (h : Yields F e C g P) :
    Yields F e C (Pass.context >>= f) P := by
  obtain ⟨r, hr, hrun⟩ := h
  refine ⟨r, hr, fun c hc role ws => ?_⟩
  obtain ⟨role', ws', h'⟩ := hrun c hc role ws
  refine ⟨role', ws', ?_⟩
  rw [← h', ← hf c hc role]
  rfl

theorem inRole {role : Role} (h : Gives F (Inside e role C) p Q) :
    Yields F e C (inRole role p) Q := by
  obtain ⟨r, hr, hrun⟩ := h
  refine ⟨r, hr, fun c hc role' ws => ?_⟩
  obtain ⟨ws', h'⟩ := hrun (⟨e, role⟩ :: c) ⟨c, hc, rfl⟩ ws
  exact ⟨role, ws', h'⟩

theorem compositional : Compositional fun _ p Q => Yields F e C p Q :=
  ⟨fun h => .pure h, fun h hf => h.bind hf⟩

/-- In every context of the class the node at hand is asked for its truth alone, or for more. -/
theorem grounded {truth : Bool} (hC : ∀ c, C c → c.testsTruth = truth) :
    Grounded truth F (fun _ => True) fun _ p Q => Yields F e C p Q where
  toCompositional := compositional
  attempt := .attempt
  warn _ := .warn
  onlyTruthMatters h := by
    refine .context (fun c hc role => ?_) h
    rw [← hC c hc]
    rfl

end Yields

end Pass

end ScriptMinifier
