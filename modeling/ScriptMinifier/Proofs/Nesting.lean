import ScriptMinifier.Proofs.Runs

/-!
How the statements of a text nest. `Nests` is a grammar of statements, read from left to right: what
holds no statement is kept as a run of tokens, and an `else` belongs to the nearest `if` before it
that can still take one. What is read is an `Outline`, which does not tell a statement from a block
that holds it alone. There is only one way to read (`Nests.unique`).
-/

namespace ScriptMinifier.Script

/-- How statements nest. What holds no statement is told by its tokens. -/
inductive Outline where
  /-- A statement that ends in a semicolon, up to this. -/
  | plain (ts : List Token)
  /-- Statements, or clauses, between braces. -/
  | group (body : List Outline)
  | branch (condition : List Token) (body : Outline) (alternative : Option Outline)
  | doWhile (body : Outline) (condition : List Token)
  /-- A `try`, with what handles its failure and what finishes it. -/
  | attempt (body handlers : List Outline)
  /-- What stands in front of a statement or of a group, and this. -/
  | headed (head : List Token) (body : Outline)

/-- A block stands for its statement if it holds only one. -/
def Outline.block : List Outline → Outline
  | [o] => o
  | os => group os

/-- How much is read: a statement, or all the statements, the clauses of a `switch` or the handlers
of a `try` that follow each other. -/
inductive Extent where
  | statement | statements | clauses | handlers
deriving DecidableEq

/-- The ways in which a statement begins. -/
inductive Lead where
  | block | branch | loop | doWhile | switch | attempt | function | label | plain
deriving DecidableEq

/-- The words that tell how a statement begins. -/
def leads : List (String × Lead) :=
  [("if", .branch), ("while", .loop), ("for", .loop), ("with", .loop), ("do", .doWhile),
   ("switch", .switch), ("try", .attempt), ("function", .function)]

def lead : List Token → Lead
  | .word w :: ts =>
    match leads.lookup w with
    | some l => l
    | none => if ts.head? = some (.mark ":") then .label else .plain
  | ts => if ts.head? = some (.mark "\x7b") then .block else .plain

/-- Whether an expression statement may begin with a token. -/
def Token.isPlain (t : Token) : Bool := t ≠ .mark "\x7b" && t ≠ .word "function"

/-- Whether statements end before a token. -/
def Token.closes (t : Token) : Bool := [.mark "\x7d", .word "case", .word "default"].contains t

/-- Whether a token begins a handler. -/
def Token.handles (t : Token) : Bool := [.word "catch", .word "finally"].contains t

/-- The tokens `ts` begin with what is outlined, and the last tokens are left. -/
inductive Nests : Extent → List Token → List Outline → List Token → Prop
  | plain {ts rest} : Run false ts → (∀ t ∈ ts.head?, t.isPlain = true) →
    Nests .statement (ts ++ .mark ";" :: rest) [.plain ts] rest
  | block {ts os rest} : Nests .statements ts os (.mark "\x7d" :: rest) →
    Nests .statement (.mark "\x7b" :: ts) [.block os] rest
  /-- An `if` takes no `else` only if there is none to take. -/
  | branch {condition ts o rest} : Run true condition → Nests .statement ts [o] rest →
    rest.head? ≠ some (.word "else") →
    Nests .statement (.word "if" :: bracketed "(" condition ")" ++ ts)
      [.branch condition o none] rest
  | branchElse {condition ts o us a rest} : Run true condition →
    Nests .statement ts [o] (.word "else" :: us) → Nests .statement us [a] rest →
    Nests .statement (.word "if" :: bracketed "(" condition ")" ++ ts)
      [.branch condition o (some a)] rest
  | loop {w head ts o rest} : w ∈ ["while", "for", "with"] → Run true head →
    Nests .statement ts [o] rest →
    Nests .statement (.word w :: bracketed "(" head ")" ++ ts)
      [.headed (.word w :: bracketed "(" head ")") o] rest
  | doWhile {ts o condition rest} :
    Nests .statement ts [o] (.word "while" :: bracketed "(" condition ")" ++ .mark ";" :: rest) →
    Run true condition → Nests .statement (.word "do" :: ts) [.doWhile o condition] rest
  | switch {subject ts cs rest} : Run true subject → Nests .clauses ts cs (.mark "\x7d" :: rest) →
    Nests .statement (.word "switch" :: bracketed "(" subject ")" ++ .mark "\x7b" :: ts)
      [.headed (.word "switch" :: bracketed "(" subject ")") (.group cs)] rest
  | attempt {ts os us hs rest} : Nests .statements ts os (.mark "\x7d" :: us) →
    Nests .handlers us hs rest →
    Nests .statement (.word "try" :: .mark "\x7b" :: ts) [.attempt os hs] rest
  | function {name params ts os rest} : Run true params →
    Nests .statements ts os (.mark "\x7d" :: rest) →
    Nests .statement
      (.word "function" :: .word name :: bracketed "(" params ")" ++ .mark "\x7b" :: ts)
      [.headed (.word "function" :: .word name :: bracketed "(" params ")") (.group os)] rest
  | label {name ts o rest} : name ∉ keywords → Nests .statement ts [o] rest →
    Nests .statement (.word name :: .mark ":" :: ts) [.headed [.word name] o] rest
  | done {ts} : (∀ t ∈ ts.head?, t.closes = true) → Nests .statements ts [] ts
  | more {ts o us os rest} : Nests .statement ts [o] us → Nests .statements us os rest →
    Nests .statements ts (o :: os) rest
  | noClause {ts} : Nests .clauses (.mark "\x7d" :: ts) [] (.mark "\x7d" :: ts)
  | case {test ts os us cs rest} : Run false test → Nests .statements ts os us →
    Nests .clauses us cs rest →
    Nests .clauses (.word "case" :: test ++ .mark ":" :: ts)
      (.headed (.word "case" :: test) (.group os) :: cs) rest
  | default {ts os us cs rest} : Nests .statements ts os us → Nests .clauses us cs rest →
    Nests .clauses (.word "default" :: .mark ":" :: ts)
      (.headed [.word "default"] (.group os) :: cs) rest
  | noHandler {ts} : (∀ t ∈ ts.head?, t.handles = false) → Nests .handlers ts [] ts
  | handler {param ts os us hs rest} : Nests .statements ts os (.mark "\x7d" :: us) →
    Nests .handlers us hs rest →
    Nests .handlers (.word "catch" :: bracketed "(" [.word param] ")" ++ .mark "\x7b" :: ts)
      (.headed (.word "catch" :: bracketed "(" [.word param] ")") (.group os) :: hs) rest
  | finalizer {ts os us hs rest} : Nests .statements ts os (.mark "\x7d" :: us) →
    Nests .handlers us hs rest →
    Nests .handlers (.word "finally" :: .mark "\x7b" :: ts)
      (.headed [.word "finally"] (.group os) :: hs) rest

variable {extent : Extent} {t : Token} {ts us rest rest' : List Token} {os os' : List Outline}
  {w : String}

/-- What begins as an expression statement does is none of the other statements. -/
theorem lead_plain (h : Run false ts) (hplain : ∀ t ∈ ts.head?, t.isPlain = true) :
    lead (ts ++ .mark ";" :: rest) = .plain := by
  cases ts with
  | nil => rfl
  | cons t ts =>
    have ht : t.isPlain = true := hplain t rfl
    cases t with
    | word w =>
      obtain ⟨hmove, hrun⟩ := h.of_word
      have hlookup : leads.lookup w = none := by
        have hall : ∀ l ∈ leads, (Token.word l.1).move false = .leave ∨ l.1 = "function" := by
          decide
        refine List.lookup_eq_none_iff.2 fun l hl => ?_
        refine bne_iff_ne.2 ?_
        rintro rfl
        rcases hall l hl with hleave | hfunction
        · rw [hmove] at hleave
          cases hleave
        · simp [Token.isPlain, hfunction] at ht
      have hcolon : (ts ++ .mark ";" :: rest).head? ≠ some (.mark ":") := by
        cases ts with
        | nil => simp
        | cons t ts =>
          have hleave := hrun.move_ne_leave
          rintro ⟨⟩
          exact hleave rfl
      rw [List.cons_append, lead, hlookup, if_neg hcolon]
    | mark m =>
      have hm : m ≠ "\x7b" := by simpa [Token.isPlain] using ht
      simp [lead, hm]
    | _ => simp [lead]

theorem lead_label {name : String} (h : name ∉ keywords) :
    lead (.word name :: .mark ":" :: ts) = .label := by
  have hlookup : leads.lookup name = none := by
    have hall : ∀ l ∈ leads, l.1 ∈ keywords := by decide
    refine List.lookup_eq_none_iff.2 fun l hl => ?_
    refine bne_iff_ne.2 ?_
    rintro rfl
    exact h (hall l hl)
  simp [lead, hlookup]

theorem lead_loop (h : w ∈ ["while", "for", "with"]) : lead (.word w :: ts) = .loop := by
  have hall : ∀ w ∈ ["while", "for", "with"], leads.lookup w = some .loop := by decide
  rw [lead, hall w h]

/-- A statement is read in the way in which it begins. -/
theorem Nests.step (h : Nests .statement ts os rest) : match lead ts with
    | .plain => ∃ us, ts = us ++ .mark ";" :: rest ∧ Run false us ∧ os = [.plain us]
    | .block => ∃ us bs, ts = .mark "\x7b" :: us ∧
      Nests .statements us bs (.mark "\x7d" :: rest) ∧ os = [.block bs]
    | .branch => ∃ condition us o, ts = .word "if" :: bracketed "(" condition ")" ++ us ∧
      Run true condition ∧
      (Nests .statement us [o] rest ∧ rest.head? ≠ some (.word "else") ∧
          os = [.branch condition o none] ∨
        ∃ vs a, Nests .statement us [o] (.word "else" :: vs) ∧ Nests .statement vs [a] rest ∧
          os = [.branch condition o (some a)])
    | .loop => ∃ w head us o, ts = .word w :: bracketed "(" head ")" ++ us ∧ Run true head ∧
      Nests .statement us [o] rest ∧ os = [.headed (.word w :: bracketed "(" head ")") o]
    | .doWhile => ∃ us o condition, ts = .word "do" :: us ∧ Run true condition ∧
      Nests .statement us [o] (.word "while" :: bracketed "(" condition ")" ++ .mark ";" :: rest) ∧
      os = [.doWhile o condition]
    | .switch => ∃ subject us cs,
      ts = .word "switch" :: bracketed "(" subject ")" ++ .mark "\x7b" :: us ∧
      Run true subject ∧ Nests .clauses us cs (.mark "\x7d" :: rest) ∧
      os = [.headed (.word "switch" :: bracketed "(" subject ")") (.group cs)]
    | .attempt => ∃ us bs vs hs, ts = .word "try" :: .mark "\x7b" :: us ∧
      Nests .statements us bs (.mark "\x7d" :: vs) ∧ Nests .handlers vs hs rest ∧
      os = [.attempt bs hs]
    | .function => ∃ name params us bs,
      ts = .word "function" :: .word name :: bracketed "(" params ")" ++ .mark "\x7b" :: us ∧
      Run true params ∧ Nests .statements us bs (.mark "\x7d" :: rest) ∧
      os = [.headed (.word "function" :: .word name :: bracketed "(" params ")") (.group bs)]
    | .label => ∃ name us o, ts = .word name :: .mark ":" :: us ∧ Nests .statement us [o] rest ∧
      os = [.headed [.word name] o] := by
  cases h with
  | plain hrun hplain =>
    rw [lead_plain hrun hplain]
    exact ⟨_, rfl, hrun, rfl⟩
  | block h => exact ⟨_, _, rfl, h, rfl⟩
  | branch hc h helse => exact ⟨_, _, _, rfl, hc, .inl ⟨h, helse, rfl⟩⟩
  | branchElse hc h ha => exact ⟨_, _, _, rfl, hc, .inr ⟨_, _, h, ha, rfl⟩⟩
  | loop hw hhead h =>
    rw [List.cons_append, lead_loop hw]
    exact ⟨_, _, _, _, rfl, hhead, h, rfl⟩
  | doWhile h hc => exact ⟨_, _, _, rfl, hc, h, rfl⟩
  | switch hs h => exact ⟨_, _, _, rfl, hs, h, rfl⟩
  | attempt h hs => exact ⟨_, _, _, _, rfl, h, hs, rfl⟩
  | function hp h => exact ⟨_, _, _, _, rfl, hp, h, rfl⟩
  | label hname h =>
    rw [lead_label hname]
    exact ⟨_, _, _, rfl, h, rfl⟩

/-- The tokens that go on with what a statement is part of. -/
def Token.continues (t : Token) : Bool := t.closes || t.handles || t = .word "else"

/-- No statement begins with what goes on with another. -/
theorem Nests.head (h : Nests .statement ts os rest) : ∃ t ∈ ts.head?, t.continues = false := by
  cases h with
  | @plain us _ hrun _ =>
    cases us with
    | nil => exact ⟨_, rfl, rfl⟩
    | cons t us =>
      refine ⟨t, rfl, ?_⟩
      have hall : ∀ t ∈ [.mark "\x7d", .word "case", .word "default", .word "catch",
          .word "finally", .word "else"], Token.move false t = .leave := by
        decide
      refine Bool.eq_false_iff.2 fun hcontinues => hrun.move_ne_leave (hall t ?_)
      simpa [Token.continues, Token.closes, Token.handles, or_assoc] using hcontinues
  | loop hw _ _ =>
    refine ⟨_, rfl, ?_⟩
    have hall : ∀ w ∈ ["while", "for", "with"], (Token.word w).continues = false := by decide
    exact hall _ hw
  | label hname _ =>
    refine ⟨_, rfl, Bool.eq_false_iff.2 fun hcontinues => hname ?_⟩
    simp only [Token.continues, Token.closes, Token.handles, List.contains_eq_mem, List.mem_cons,
      List.not_mem_nil, Token.word.injEq, reduceCtorEq, or_false, false_or, Bool.or_eq_true,
      decide_eq_true_eq] at hcontinues
    rcases hcontinues with ((rfl | rfl) | rfl | rfl) | rfl <;> decide
  | _ => exact ⟨_, rfl, rfl⟩

/-- By induction on one reading: how a statement begins tells how the other reads it, and the runs
and the parts end where those of the first do. -/
theorem Nests.unique (h : Nests extent ts os rest) (h' : Nests extent ts os' rest') :
    os = os' ∧ rest = rest' := by
  induction h generalizing os' rest' with
  | plain hrun hplain =>
    have hstep := h'.step
    rw [lead_plain hrun hplain] at hstep
    obtain ⟨us, hus, hu, rfl⟩ := hstep
    obtain ⟨rfl, hrest⟩ := hrun.unique hu rfl rfl hus
    exact ⟨rfl, (List.cons.inj hrest).2⟩
  | block _ ih =>
    obtain ⟨us, bs, hus, hb, rfl⟩ := h'.step
    cases hus
    obtain ⟨rfl, hrest⟩ := ih hb
    exact ⟨rfl, (List.cons.inj hrest).2⟩
  | branch hc _ helse ih =>
    obtain ⟨c, us, o, hus, hc', hb⟩ := h'.step
    obtain ⟨rfl, rfl⟩ := bracketed_inj hc hc' (List.cons.inj hus).2
    rcases hb with ⟨hb, -, rfl⟩ | ⟨vs, a, hb, -, rfl⟩
    · obtain ⟨ho, rfl⟩ := ih hb
      cases ho
      exact ⟨rfl, rfl⟩
    · -- the other reading has an `else` where this one has none to take
      obtain ⟨-, rfl⟩ := ih hb
      exact absurd rfl helse
  | branchElse hc _ _ ihb iha =>
    obtain ⟨c, us, o, hus, hc', hb⟩ := h'.step
    obtain ⟨rfl, rfl⟩ := bracketed_inj hc hc' (List.cons.inj hus).2
    rcases hb with ⟨hb, helse, rfl⟩ | ⟨vs, a, hb, ha, rfl⟩
    · obtain ⟨-, rfl⟩ := ihb hb
      exact absurd rfl helse
    · obtain ⟨ho, hv⟩ := ihb hb
      cases ho
      cases hv
      obtain ⟨ho, rfl⟩ := iha ha
      cases ho
      exact ⟨rfl, rfl⟩
  | loop hw hhead _ ih =>
    have hstep := h'.step
    rw [List.cons_append, lead_loop hw] at hstep
    obtain ⟨w, head, us, o, hus, hhead', hb, rfl⟩ := hstep
    obtain ⟨hw, hus⟩ := List.cons.inj hus
    obtain ⟨rfl, rfl⟩ := bracketed_inj hhead hhead' hus
    obtain ⟨ho, rfl⟩ := ih hb
    cases hw
    cases ho
    exact ⟨rfl, rfl⟩
  | doWhile _ hc ih =>
    obtain ⟨us, o, c, hus, hc', hb, rfl⟩ := h'.step
    cases hus
    obtain ⟨ho, hwhile⟩ := ih hb
    obtain ⟨rfl, hend⟩ := bracketed_inj hc hc' (List.cons.inj hwhile).2
    cases ho
    exact ⟨rfl, (List.cons.inj hend).2⟩
  | switch hs _ ih =>
    obtain ⟨subject, us, cs, hus, hs', hb, rfl⟩ := h'.step
    obtain ⟨rfl, hbody⟩ := bracketed_inj hs hs' (List.cons.inj hus).2
    cases hbody
    obtain ⟨rfl, hrest⟩ := ih hb
    exact ⟨rfl, (List.cons.inj hrest).2⟩
  | attempt _ _ ihb ihh =>
    obtain ⟨us, bs, vs, hs, hus, hb, hh, rfl⟩ := h'.step
    cases hus
    obtain ⟨rfl, hvs⟩ := ihb hb
    cases hvs
    obtain ⟨rfl, rfl⟩ := ihh hh
    exact ⟨rfl, rfl⟩
  | function hp _ ih =>
    obtain ⟨name, params, us, bs, hus, hp', hb, rfl⟩ := h'.step
    obtain ⟨hname, hparams⟩ := List.cons.inj (List.cons.inj hus).2
    obtain ⟨rfl, hbody⟩ := bracketed_inj hp hp' hparams
    cases hname
    cases hbody
    obtain ⟨rfl, hrest⟩ := ih hb
    exact ⟨rfl, (List.cons.inj hrest).2⟩
  | label hname _ ih =>
    have hstep := h'.step
    rw [lead_label hname] at hstep
    obtain ⟨name, us, o, hus, hb, rfl⟩ := hstep
    cases hus
    obtain ⟨ho, rfl⟩ := ih hb
    cases ho
    exact ⟨rfl, rfl⟩
  | done hcloses =>
    cases h' with
    | done => exact ⟨rfl, rfl⟩
    | more h _ =>
      obtain ⟨t, ht, hcontinues⟩ := h.head
      simp [Token.continues, hcloses t ht] at hcontinues
  | more h _ ih ihs =>
    cases h' with
    | done hcloses =>
      obtain ⟨t, ht, hcontinues⟩ := h.head
      simp [Token.continues, hcloses t ht] at hcontinues
    | more h' hs =>
      obtain ⟨ho, rfl⟩ := ih h'
      obtain ⟨rfl, rfl⟩ := ihs hs
      cases ho
      exact ⟨rfl, rfl⟩
  | noClause =>
    cases h' with
    | noClause => exact ⟨rfl, rfl⟩
  | case ht _ _ ihb ihc =>
    generalize hus : Token.word "case" :: _ ++ _ = us at h'
    cases h' with
    | noClause => cases hus
    | default => simp at hus
    | case ht' hb hc =>
      obtain ⟨rfl, hbody⟩ := ht.unique ht' rfl rfl (List.cons.inj hus).2
      cases hbody
      obtain ⟨rfl, rfl⟩ := ihb hb
      obtain ⟨rfl, rfl⟩ := ihc hc
      exact ⟨rfl, rfl⟩
  | default _ _ ihb ihc =>
    generalize hus : Token.word "default" :: _ :: _ = us at h'
    cases h' with
    | noClause => cases hus
    | case => simp at hus
    | default hb hc =>
      cases hus
      obtain ⟨rfl, rfl⟩ := ihb hb
      obtain ⟨rfl, rfl⟩ := ihc hc
      exact ⟨rfl, rfl⟩
  | noHandler hhandles =>
    cases h' with
    | noHandler => exact ⟨rfl, rfl⟩
    | handler | finalizer => cases hhandles _ rfl
  | handler _ _ ihb ihh =>
    generalize hus : Token.word "catch" :: _ ++ _ = us at h'
    cases h' with
    | noHandler hhandles =>
      subst hus
      cases hhandles _ rfl
    | finalizer => simp [bracketed] at hus
    | handler hb hh =>
      cases hus
      obtain ⟨rfl, hvs⟩ := ihb hb
      cases hvs
      obtain ⟨rfl, rfl⟩ := ihh hh
      exact ⟨rfl, rfl⟩
  | finalizer _ _ ihb ihh =>
    generalize hus : Token.word "finally" :: _ :: _ = us at h'
    cases h' with
    | noHandler hhandles =>
      subst hus
      cases hhandles _ rfl
    | handler => simp [bracketed] at hus
    | finalizer hb hh =>
      cases hus
      obtain ⟨rfl, hvs⟩ := ihb hb
      cases hvs
      obtain ⟨rfl, rfl⟩ := ihh hh
      exact ⟨rfl, rfl⟩

theorem Nests.skips (h : Nests extent ts os rest) : Skips ts rest := by
  induction h with
  | plain hrun _ => exact .run hrun.within (.pass rfl .refl)
  | block _ ih => exact ih.braced .refl
  | branch hc _ _ ih => exact .pass rfl (.head hc ih)
  | branchElse hc _ _ ih iha => exact .pass rfl (.head hc (ih.trans (.pass rfl iha)))
  | loop _ hhead _ ih => exact .pass rfl (.head hhead ih)
  | doWhile _ hc ih => exact .pass rfl (ih.trans (.pass rfl (.head hc (.pass rfl .refl))))
  | switch hs _ ih => exact .pass rfl (.head hs (ih.braced .refl))
  | attempt _ _ ih ihh => exact .pass rfl (ih.braced ihh)
  | function hp _ ih => exact .pass rfl (.pass rfl (.head hp (ih.braced .refl)))
  | label _ _ ih => exact .pass rfl (.pass rfl ih)
  | done | noClause | noHandler => exact .refl
  | more _ _ ih ihs => exact ih.trans ihs
  | case ht _ _ ih ihc => exact .pass rfl (.run ht.within (.pass rfl (ih.trans ihc)))
  | default _ _ ih ihc => exact .pass rfl (.pass rfl (ih.trans ihc))
  | handler _ _ ih ihh => exact .pass rfl (.head (.pass rfl .nil) (ih.braced ihh))
  | finalizer _ _ ih ihh => exact .pass rfl (ih.braced ihh)

/-- What is read to its end has brackets that match. -/
theorem Nests.run (h : Nests extent ts os []) : Run true ts := by
  obtain ⟨us, rfl, hu⟩ := h.skips
  rwa [List.append_nil]

end ScriptMinifier.Script
