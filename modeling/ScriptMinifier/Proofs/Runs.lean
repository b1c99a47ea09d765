import Mathlib.Tactic.SplitIfs
import ScriptMinifier.Proofs.Grammar

namespace ScriptMinifier.Script

/-- The words that statements are put together with. -/
def structural : List String :=
  ["if", "else", "while", "do", "for", "with", "switch", "case", "default", "try", "catch",
   "finally"]

/-- What a reader of a run of tokens does at a token. -/
inductive Move where
  | pass
  /-- Reads what is between brackets, up to the one that closes. -/
  | enter (closing : String)
  /-- Reads the name of a property, which may be any word. -/
  | point
  /-- Reads what is between `?` and its colon. -/
  | choose
  /-- The run ends before the token. -/
  | leave
deriving DecidableEq

/-- Between brackets only brackets matter. -/
def Token.move (inside : Bool) : Token → Move
  | .mark m =>
    if m = "(" then .enter ")"
    else if m = "[" then .enter "]"
    else if m = "\x7b" then .enter "\x7d"
    else if [")", "]", "\x7d"].contains m then .leave
    else if inside then .pass
    else if m = "." then .point
    else if m = "?" then .choose
    else if [";", ":"].contains m then .leave
    else .pass
  | .word w => if !inside && structural.contains w then .leave else .pass
  | .number _ | .string _ => .pass

/-- Tokens whose brackets match. Unless these are `inside` of brackets themselves, no semicolon
stands bare in them, a colon only after its `?`, and a structural word only as a property. -/
inductive Run : Bool → List Token → Prop
  | nil {inside} : Run inside []
  | pass {inside t ts} : t.move inside = .pass → Run inside ts → Run inside (t :: ts)
  | enter {inside t closing us ts} : t.move inside = .enter closing → Run true us →
    Run inside ts → Run inside (t :: us ++ .mark closing :: ts)
  | point {inside t w ts} : t.move inside = .point → Run inside ts →
    Run inside (t :: .word w :: ts)
  | choose {inside t us ts} : t.move inside = .choose → Run inside us → Run inside ts →
    Run inside (t :: us ++ .mark ":" :: ts)

variable {inside : Bool} {t x y : Token} {ts us vs rest rest' : List Token} {w : String}

theorem move_closing {closing : String} (h : t.move inside = .enter closing) :
    (Token.mark closing).move true = .leave := by
  cases t with
  | mark m =>
    simp only [Token.move] at h
    split_ifs at h <;> cases h <;> rfl
  | word w =>
    simp only [Token.move] at h
    split_ifs at h
  | _ => cases h

theorem move_colon (h : t.move inside = .choose) : (Token.mark ":").move inside = .leave := by
  cases inside with
  | false => rfl
  | true =>
    cases t with
    | mark m =>
      simp only [Token.move] at h
      split_ifs at h
    | _ => cases h

/-- How a run that a token ends goes on, by its first token. -/
theorem Run.step (h : Run inside us) (hy : y.move inside = .leave)
    (heq : t :: vs = us ++ y :: rest) : match t.move inside with
    | .leave => us = []
    | .pass => ∃ us', us = t :: us' ∧ Run inside us'
    | .enter closing =>
      ∃ us' ws, us = t :: us' ++ .mark closing :: ws ∧ Run true us' ∧ Run inside ws
    | .point => ∃ w us', us = t :: .word w :: us' ∧ Run inside us'
    | .choose => ∃ us' ws, us = t :: us' ++ .mark ":" :: ws ∧ Run inside us' ∧ Run inside ws := by
  cases h with
  | nil =>
    obtain ⟨rfl, -⟩ := List.cons.inj heq
    rw [hy]
  | pass ht h =>
    obtain ⟨rfl, -⟩ := List.cons.inj heq
    rw [ht]
    exact ⟨_, rfl, h⟩
  | enter ht hu h =>
    obtain ⟨rfl, -⟩ := List.cons.inj heq
    rw [ht]
    exact ⟨_, _, rfl, hu, h⟩
  | point ht h =>
    obtain ⟨rfl, -⟩ := List.cons.inj heq
    rw [ht]
    exact ⟨_, _, rfl, h⟩
  | choose ht hu h =>
    obtain ⟨rfl, -⟩ := List.cons.inj heq
    rw [ht]
    exact ⟨_, _, rfl, hu, h⟩

theorem Run.unique (h : Run inside ts) (h' : Run inside us) (hx : x.move inside = .leave)
    (hy : y.move inside = .leave) (heq : ts ++ x :: rest = us ++ y :: rest') :
    ts = us ∧ x :: rest = y :: rest' := by
  induction h generalizing us x y rest rest' with
  | nil =>
    have hstep := h'.step hy heq
    rw [hx] at hstep
    subst hstep
    exact ⟨rfl, heq⟩
  | pass ht _ ih =>
    have hstep := h'.step hy heq
    rw [ht] at hstep
    obtain ⟨vs, rfl, hv⟩ := hstep
    obtain ⟨rfl, hrest⟩ := ih hv hx hy (List.cons.inj heq).2
    exact ⟨rfl, hrest⟩
  | enter ht _ _ ihu ih =>
    have hstep := h'.step hy heq
    rw [ht] at hstep
    obtain ⟨vs, ws, rfl, hv, hw⟩ := hstep
    simp only [List.cons_append, List.append_assoc, List.cons.injEq, true_and] at heq
    obtain ⟨rfl, hclosing⟩ := ihu hv (move_closing ht) (move_closing ht) heq
    obtain ⟨rfl, hrest⟩ := ih hw hx hy (List.cons.inj hclosing).2
    exact ⟨rfl, hrest⟩
  | point ht _ ih =>
    have hstep := h'.step hy heq
    rw [ht] at hstep
    obtain ⟨w, vs, rfl, hv⟩ := hstep
    simp only [List.cons_append, List.cons.injEq, true_and] at heq
    obtain ⟨hw, hvs⟩ := heq
    obtain ⟨rfl, hrest⟩ := ih hv hx hy hvs
    exact ⟨by rw [hw], hrest⟩
  | choose ht _ _ ihu ih =>
    have hstep := h'.step hy heq
    rw [ht] at hstep
    obtain ⟨vs, ws, rfl, hv, hw⟩ := hstep
    simp only [List.cons_append, List.append_assoc, List.cons.injEq, true_and] at heq
    obtain ⟨rfl, hcolon⟩ := ihu hv (move_colon ht) (move_colon ht) heq
    obtain ⟨rfl, hrest⟩ := ih hw hx hy (List.cons.inj hcolon).2
    exact ⟨rfl, hrest⟩

theorem move_word : (Token.word w).move inside = .pass ∨ (Token.word w).move inside = .leave := by
  rw [Token.move]
  split
  · exact .inr rfl
  · exact .inl rfl

/-- What a run that begins with a word goes on with is a run. -/
theorem Run.of_word (h : Run inside (.word w :: ts)) :
    (Token.word w).move inside = .pass ∧ Run inside ts := by
  generalize ht : Token.word w = t at h
  cases h with
  | pass hmove h => exact ⟨hmove, h⟩
  | enter hmove | point hmove | choose hmove =>
    subst ht
    rcases move_word (w := w) with hword | hword <;> rw [hmove] at hword <;> cases hword

/-- No run begins with what ends it. -/
theorem Run.move_ne_leave (h : Run inside (t :: ts)) : t.move inside ≠ .leave := by
  intro hleave
  cases h with
  | pass hmove | enter hmove | point hmove | choose hmove =>
    rw [hleave] at hmove
    cases hmove

/-- Between brackets there is one way to go on. -/
theorem bracketed_inj {params params' : List Token} (h : Run true params) (h' : Run true params')
    (heq : bracketed "(" params ")" ++ ts = bracketed "(" params' ")" ++ us) :
    params = params' ∧ ts = us := by
  simp only [bracketed, List.cons_append, List.append_assoc, List.cons.injEq, true_and,
    List.nil_append] at heq
  obtain ⟨rfl, hrest⟩ := h.unique h' rfl rfl heq
  exact ⟨rfl, (List.cons.inj hrest).2⟩

/-- What becomes of a move between brackets, where only brackets matter. -/
def Move.within : Move → Move
  | .enter closing => .enter closing
  | _ => .pass

theorem move_within {move : Move} (h : t.move inside = move) (hmove : move ≠ .leave) :
    t.move true = move.within := by
  subst h
  cases t with
  | mark m =>
    simp only [Token.move] at hmove ⊢
    split_ifs at hmove ⊢ <;> first | rfl | exact absurd rfl hmove
  | word w => exact congrArg Move.within (move_word.resolve_right hmove).symm
  | _ => rfl

namespace Run

theorem append (h : Run inside ts) (hu : Run inside us) : Run inside (ts ++ us) := by
  induction h with
  | nil => exact hu
  | pass ht _ ih => exact .pass ht (ih hu)
  | point ht _ ih => exact .point ht (ih hu)
  | enter ht hv _ _ ih =>
    rw [List.append_assoc, List.cons_append]
    exact .enter ht hv (ih hu)
  | choose ht hv _ _ ih =>
    rw [List.append_assoc, List.cons_append]
    exact .choose ht hv (ih hu)

theorem bracketed {opening closing : String} (h : Run true ts)
    (hm : (Token.mark opening).move inside = .enter closing) :
    Run inside (bracketed opening ts closing) :=
  .enter hm h .nil

/-- A run may stand between brackets. -/
theorem within (h : Run inside ts) : Run true ts := by
  induction h with
  | nil => exact .nil
  | pass ht _ ih => exact .pass (move_within ht nofun) ih
  | point ht _ ih => exact .pass (move_within ht nofun) (.pass rfl ih)
  | enter ht hu _ _ ih => exact .enter (move_within ht nofun) hu ih
  | choose ht _ _ ihu ih => exact (ihu.append (.pass rfl ih)).pass (move_within ht nofun)

end Run

/-- Tokens with matching brackets are all that comes before the last ones. -/
def Skips (ts rest : List Token) : Prop := ∃ us, ts = us ++ rest ∧ Run true us

namespace Skips

theorem refl : Skips ts ts := ⟨[], rfl, .nil⟩

theorem trans (h : Skips ts us) (h' : Skips us rest) : Skips ts rest := by
  obtain ⟨vs, rfl, hv⟩ := h
  obtain ⟨ws, rfl, hw⟩ := h'
  exact ⟨vs ++ ws, (List.append_assoc ..).symm, hv.append hw⟩

theorem run (h : Run true ts) (h' : Skips us rest) : Skips (ts ++ us) rest :=
  trans ⟨ts, rfl, h⟩ h'

theorem pass (h : t.move true = .pass) (h' : Skips ts rest) : Skips (t :: ts) rest :=
  run (.pass h .nil) h'

theorem braced (h : Skips ts (.mark "\x7d" :: us)) (h' : Skips us rest) :
    Skips (.mark "\x7b" :: ts) rest := by
  obtain ⟨vs, rfl, hv⟩ := h
  have hbraces : Run true (bracketed "\x7b" vs "\x7d") := hv.bracketed rfl
  simpa [bracketed] using run hbraces h'

theorem head (h : Run true ts) (h' : Skips us rest) : Skips (bracketed "(" ts ")" ++ us) rest :=
  run (h.bracketed rfl) h'

end Skips

end ScriptMinifier.Script
