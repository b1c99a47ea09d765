import ScriptMinifier.Proofs.Pass

namespace ScriptMinifier

namespace Context

/-- At most the role of the innermost enclosure differs. -/
def Reroled (c c' : Context) : Prop := ∃ role, c' = setRole role c

theorem Reroled.refl (c : Context) : Reroled c c := by
  cases c with
  | nil => exact ⟨.other, rfl⟩
  | cons e c => exact ⟨e.role, rfl⟩

theorem Reroled.setRole {c c' : Context} (h : Reroled c c') (role : Role) :
    c'.setRole role = c.setRole role := by
  obtain ⟨role', rfl⟩ := h
  cases c <;> rfl

/-- What lies outside the innermost enclosure is the same. -/
theorem Reroled.tail {c c' : Context} (h : Reroled c c') : c'.tail = c.tail := by
  obtain ⟨role, rfl⟩ := h
  cases c <;> rfl

theorem Reroled.onlyTruthMatters {c c' : Context} (h : Reroled c c') :
    c'.onlyTruthMatters = c.onlyTruthMatters :=
  congrArg testsTruth h.tail

end Context

open Context (Reroled)

namespace Pass

variable {α β : Type} {D : Context → Prop} {P : Position → Prop}

/-- A step that starts in a context of the class `D` ends in one, with a result of which `Q` holds
or a fault at a position of which `P` holds, and adds warnings at such positions only. -/
def Leaves (D : Context → Prop) (P : Position → Prop) (p : Pass α) (Q : α → Prop) : Prop :=
  ∀ s, D s.context → ∃ raised, Ends (fun f => P f.position) Q (p.run s).1 ∧
    D (p.run s).2.context ∧ (p.run s).2.warnings = s.warnings ++ raised ∧
      ∀ w ∈ raised, P w.position

namespace Leaves

variable {p : Pass α} {Q : α → Prop} {c : Context}

/-- A step that leaves the state alone. -/
theorem attempt {r : Except Fault α} (hQ : ∀ a, r = .ok a → Q a)
    (hP : ∀ f, r = .error f → P f.position) : Leaves D P (attempt r) Q := by
  intro s hs
  have hend : Ends (fun f => P f.position) Q r := by
    cases r with
    | ok a => exact hQ a rfl
    | error f => exact hP f rfl
  exact ⟨[], hend, hs, (List.append_nil _).symm, by simp⟩

protected theorem pure {a : α} (h : Q a) : Leaves D P (pure a) Q :=
  attempt (r := .ok a) (fun _ ha => Except.ok.inj ha ▸ h) nofun

protected theorem bind {f : α → Pass β} {Q' : β → Prop} (h : Leaves D P p Q)
    (hf : ∀ a, Q a → Leaves D P (f a) Q') : Leaves D P (p >>= f) Q' := by
  intro s hs
  obtain ⟨raised, hend, hcontext, hwarnings, hraised⟩ := h s hs
  rw [run_bind]
  generalize p.run s = end_ at hend hcontext hwarnings ⊢
  obtain ⟨r, s'⟩ := end_
  cases r with
  | error fault => exact ⟨raised, hend, hcontext, hwarnings, hraised⟩
  | ok a =>
    obtain ⟨raised', hend', hcontext', hwarnings', hraised'⟩ := hf a hend s' hcontext
    have hboth : ((f a).run s').2.warnings = s.warnings ++ (raised ++ raised') := by
      rw [hwarnings', ← List.append_assoc, ← hwarnings]
    exact ⟨raised ++ raised', hend', hcontext', hboth,
      List.forall_mem_append.2 ⟨hraised, hraised'⟩⟩

theorem compositional : Compositional fun _ p Q => Leaves D P p Q :=
  ⟨fun h => .pure h, fun h hf => h.bind hf⟩

/-- A step may look at its context. -/
theorem context {f : Context → Pass β} {Q : β → Prop} (h : ∀ c, D c → Leaves D P (f c) Q) :
    Leaves D P (Pass.context >>= f) Q :=
  fun s hs => h s.context hs s hs

protected theorem warn {o : Options} {finding : Finding} {at_ : Position} (h : P at_) :
    Leaves D P (warn o finding at_) fun _ => True := by
  unfold Pass.warn report
  split
  · intro s hs
    exact ⟨[⟨finding.template, at_⟩], trivial, hs, rfl, by simpa using h⟩
  · exact .pure trivial

theorem grounded {truth : Bool} (hD : ∀ c, D c → c.onlyTruthMatters = truth) :
    Grounded truth (fun f => P f.position) P fun _ p Q => Leaves D P p Q where
  toCompositional := compositional
  attempt := .attempt
  warn := .warn
  onlyTruthMatters h := .context fun c hc => hD c hc ▸ h

/-- An enclosure is gone with the step inside it, and with it what became of its role. -/
theorem within {e : Enclosure} (h : Leaves (Reroled (e :: c)) P p Q) :
    Leaves (· = c) P (within e p) Q := by
  rintro s rfl
  obtain ⟨raised, hend, hcontext, hrest⟩ :=
    h { s with context := e :: s.context } (.refl _)
  exact ⟨raised, hend, hcontext.tail, hrest⟩

/-- A child has a role in the innermost enclosure, which stays. -/
theorem inRole {role : Role} (h : Leaves (· = c.setRole role) P p Q) :
    Leaves (Reroled c) P (inRole role p) Q := by
  intro s hs
  obtain ⟨raised, hend, hcontext, hrest⟩ :=
    h { s with context := s.context.setRole role } (hs.setRole role)
  exact ⟨raised, hend, ⟨role, hcontext⟩, hrest⟩

end Leaves

end Pass

end ScriptMinifier
