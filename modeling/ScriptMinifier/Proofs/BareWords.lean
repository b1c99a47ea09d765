import ScriptMinifier.Proofs.Outlines

namespace ScriptMinifier.Script

variable {t u v : List Char} {ts us rest : List Token} {k : Token} {m w : String} {d : Nat}
  {dot dot' dot'' point inside : Bool}

def openings : List String := ["(", "[", "\x7b"]

def closings : List String := [")", "]", "\x7d"]

/-- The words that stand bare in tokens before which `depth` brackets have been opened, and a point
right before if `point` says so. -/
def bareWordsFrom : Nat → Bool → List Token → List String
  | _, _, [] => []
  | depth, point, .word w :: ts =>
    if depth = 0 && !point then w :: bareWordsFrom depth false ts
    else bareWordsFrom depth false ts
  | depth, _, .mark m :: ts =>
    if m ∈ openings then bareWordsFrom (depth + 1) false ts
    else if m ∈ closings then bareWordsFrom (depth - 1) false ts
    else bareWordsFrom depth (m = ".") ts
  | depth, _, .number _ :: ts | depth, _, .string _ :: ts => bareWordsFrom depth false ts

/-- The words that stand in tokens outside brackets, but for names of properties. -/
def bareWords (ts : List Token) : List String := bareWordsFrom 0 false ts

/-- A bracket is closed by one of its kind. -/
theorem brackets_of_enter {closing : String} (h : k.move inside = .enter closing) :
    ∃ m ∈ openings, k = .mark m ∧ closing ∈ closings := by
  cases k with
  | mark m =>
    refine ⟨m, ?_, rfl, ?_⟩ <;> simp only [Token.move] at h <;> split_ifs at h <;> cases h <;>
      simp [openings, closings, *]
  | word w =>
    simp only [Token.move] at h
    split_ifs at h
  | _ => cases h

/-- What is taken over as it stands is no bracket, and outside brackets no point. -/
theorem not_bracket_of_pass (h : (Token.mark m).move inside = .pass) :
    m ∉ openings ∧ m ∉ closings ∧ (inside = false → m ≠ ".") := by
  simp only [Token.move] at h
  split_ifs at h <;> simp_all [openings, closings]

theorem bareWordsFrom_closing (hm : m ∈ closings) :
    bareWordsFrom (d + 1) point (.mark m :: ts) = bareWordsFrom d false ts := by
  have hopening : ∀ m ∈ closings, m ∉ openings := by decide
  rw [bareWordsFrom, if_neg (hopening m hm), if_pos hm]
  rfl

theorem bareWordsFrom_opening (hm : m ∈ openings) :
    bareWordsFrom d point (.mark m :: ts) = bareWordsFrom (d + 1) false ts := by
  rw [bareWordsFrom, if_pos hm]

/-- Within brackets no word stands bare. -/
theorem bareWordsFrom_within (h : Run true ts) (hm : m ∈ closings) :
    bareWordsFrom (d + 1) point (ts ++ .mark m :: rest) = bareWordsFrom d false rest := by
  generalize hinside : true = inside at h
  induction h generalizing d point m rest with
  | nil => exact bareWordsFrom_closing hm
  | @pass _ k ts hmove _ ih =>
    have hrest (point : Bool) : bareWordsFrom (d + 1) point (ts ++ .mark m :: rest) =
        bareWordsFrom d false rest := ih hm hinside
    cases k with
    | mark m =>
      obtain ⟨hopening, hclosing, -⟩ := not_bracket_of_pass hmove
      rw [List.cons_append, bareWordsFrom, if_neg hopening, if_neg hclosing, hrest]
    | word w => exact hrest false
    | number x => exact hrest false
    | string s => exact hrest false
  | enter hmove _ _ ihu ih =>
    obtain ⟨m', hm', rfl, hclosing⟩ := brackets_of_enter hmove
    rw [List.append_assoc, List.cons_append, List.cons_append, bareWordsFrom_opening hm',
      ihu hclosing rfl, ih hm hinside]
  | point hmove | choose hmove =>
    -- between brackets neither a point nor a question mark counts
    subst hinside
    have hpass := move_within hmove nofun
    rw [hmove] at hpass
    cases hpass

theorem eq_of_move : (k.move inside = .point → k = .mark ".") ∧
    (k.move inside = .choose → k = .mark "?") := by
  cases k with
  | mark m =>
    simp only [Token.move]
    split_ifs <;> simp [*]
  | word w =>
    simp only [Token.move]
    split_ifs <;> simp
  | _ => simp [Token.move]

theorem bareWords_mark (hm : m ∉ openings ++ closings) (hpoint : m ≠ ".") (ts : List Token) :
    bareWords (.mark m :: ts) = bareWords ts := by
  rw [List.mem_append, not_or] at hm
  simp [bareWords, bareWordsFrom, hm, hpoint]

theorem bareWords_of_pass (h : (Token.mark m).move false = .pass) (ts : List Token) :
    bareWords (.mark m :: ts) = bareWords ts := by
  obtain ⟨hopening, hclosing, hpoint⟩ := not_bracket_of_pass h
  exact bareWords_mark (by simp [hopening, hclosing]) (hpoint rfl) ts

/-- Tokens with matching brackets do not change what stands bare after them. -/
theorem bareWords_append (h : Run false ts) (us : List Token) :
    bareWords (ts ++ us) = bareWords ts ++ bareWords us := by
  generalize hinside : false = inside at h
  induction h generalizing us with
  | nil => rfl
  | @pass _ k ts hmove _ ih =>
    have hrest := ih us hinside
    cases k with
    | mark m =>
      have hskip := bareWords_of_pass (hinside ▸ hmove)
      rw [List.cons_append, hskip, hskip, hrest]
    | word w => exact congrArg (w :: ·) hrest
    | number x => exact hrest
    | string s => exact hrest
  | @enter _ _ closing vs _ hmove hv _ _ ih =>
    obtain ⟨m, hm, rfl, hclosing⟩ := brackets_of_enter hmove
    have hskip (ws : List Token) : bareWordsFrom (0 + 1) false (vs ++ .mark closing :: ws) =
        bareWordsFrom 0 false ws := bareWordsFrom_within hv hclosing
    simp only [List.append_assoc, List.cons_append, bareWords, bareWordsFrom_opening hm, hskip]
    exact ih us hinside
  | point hmove _ ih =>
    obtain rfl := eq_of_move.1 hmove
    exact ih us hinside
  | @choose _ _ vs ts hmove _ _ ihu ih =>
    obtain rfl := eq_of_move.2 hmove
    have hcolon (ts : List Token) : bareWords (.mark ":" :: ts) = bareWords ts :=
      bareWords_mark (by decide) (by decide) ts
    have hmark (ts : List Token) : bareWords (.mark "?" :: ts) = bareWords ts :=
      bareWords_mark (by decide) (by decide) ts
    rw [List.append_assoc, List.cons_append, List.cons_append, List.cons_append, hmark, hmark,
      ihu _ hinside, ihu _ hinside, hcolon, hcolon, ih us hinside, List.append_assoc]

theorem bareWords_words (ws : List String) (us : List Token) :
    bareWords (ws.map .word ++ us) = ws ++ bareWords us := by
  induction ws with
  | nil => rfl
  | cons w ws ih => exact congrArg (w :: ·) ih

theorem bareWords_bracketed {opening closing : String} (h : Run true ts)
    (hm : (Token.mark opening).move false = .enter closing) :
    bareWords (bracketed opening ts closing) = [] := by
  obtain ⟨m, hm', hmark, hclosing⟩ := brackets_of_enter hm
  obtain rfl := Token.mark.inj hmark
  rw [bracketed, bareWords, List.cons_append, bareWordsFrom_opening hm',
    bareWordsFrom_within h hclosing]
  rfl

theorem mem_bareWords_cons (hk : k.move false = .pass) (ts : List Token) :
    w ∈ bareWords (k :: ts) ↔ k = .word w ∨ w ∈ bareWords ts := by
  cases k with
  | mark m => simp [bareWords_of_pass hk]
  | word v => simp [bareWords, bareWordsFrom, eq_comm]
  | number x => simp [bareWords, bareWordsFrom]
  | string s => simp [bareWords, bareWordsFrom]

theorem mem_of_mem_bareWordsFrom (h : w ∈ bareWordsFrom d point ts) : .word w ∈ ts := by
  fun_induction bareWordsFrom d point ts with
  | case1 => cases h
  | case2 depth point v ts hbare ih =>
    obtain rfl | h := List.mem_cons.1 h
    · exact .head _
    · exact .tail _ (ih h)
  | case3 | case4 | case5 | case6 | case7 | case8 => exact List.mem_cons_of_mem _ (by simp_all)

/-- An `in` stands bare in the text. -/
def BareIn (t : List Char) : Prop := "in" ∈ bareWords (tokens t)

theorem bareIn_iff {next : Char → Prop} (h : Lexes t ts next) :
    BareIn t ↔ "in" ∈ bareWords ts := by
  rw [BareIn, h.tokens_eq]

theorem not_bareIn_word (h : Text.isName w = true) (hw : w ≠ "in") : ¬BareIn w.toList := by
  rw [bareIn_iff (operand_word h true).lexes]
  exact fun hin => hw (List.mem_singleton.1 hin).symm

theorem not_bareIn_identifier (h : Text.isIdentifier w = true) : ¬BareIn w.toList := by
  refine not_bareIn_word (Text.isName_of_isIdentifier h) ?_
  rintro rfl
  exact Text.not_mem_keywords h (by decide)

namespace Fragment

/-- A token between two texts. -/
theorem bareIn_between (ht : Fragment t ts dot) (hu : Fragment u us dot')
    (h : Fragment v (ts ++ k :: us) dot'') (hk : k.move false = .pass) :
    BareIn v ↔ BareIn t ∨ k = .word "in" ∨ BareIn u := by
  rw [bareIn_iff ht.lexes, bareIn_iff hu.lexes, bareIn_iff h.lexes,
    bareWords_append ht.run, List.mem_append, mem_bareWords_cons hk]

theorem bareIn_join_binary (ht : Fragment t ts dot) (hu : Fragment u us dot')
    (op : BinaryOperator) : BareIn (op.join t u) ↔ BareIn t ∨ op = .inside ∨ BareIn u := by
  have hop : op.token.move false = .pass ∧ (op.token = .word "in" ↔ op = .inside) := by
    cases op <;> decide
  rw [ht.bareIn_between hu (ht.join_binary hu op) hop.1, hop.2]

theorem bareIn_assign (ht : Fragment t ts dot) (hu : Fragment u us dot') (op : AssignOperator) :
    BareIn (t ++ op.text.toList ++ u) ↔ BareIn t ∨ BareIn u := by
  have hop : (Token.mark op.text).move false = .pass := by cases op <;> decide
  rw [ht.bareIn_between hu (ht.assign hu op) hop]
  simp

theorem bareIn_sequence (ht : Fragment t ts dot) (hu : Fragment u us dot') :
    BareIn (t ++ ',' :: u) ↔ BareIn t ∨ BareIn u := by
  rw [ht.bareIn_between hu (ht.sequence hu) rfl]
  simp

theorem bareIn_choice (ht : Fragment t ts dot) (hu : Fragment u us dot')
    {vs : List Token} (hv : Fragment v vs dot'') :
    BareIn (t ++ '?' :: u ++ ':' :: v) ↔ BareIn t ∨ BareIn u ∨ BareIn v := by
  have hmark {m : String} (hm : m = "?" ∨ m = ":") (ts : List Token) :
      bareWords (.mark m :: ts) = bareWords ts := by
    obtain rfl | rfl := hm <;> exact bareWords_mark (by decide) (by decide) ts
  rw [bareIn_iff ht.lexes, bareIn_iff hu.lexes, bareIn_iff hv.lexes,
    bareIn_iff (ht.choice hu hv).lexes, List.append_assoc, bareWords_append ht.run,
    List.cons_append, hmark (.inl rfl), bareWords_append hu.run, hmark (.inr rfl), List.mem_append,
    List.mem_append]

/-- Something without a bare `in` after a text. -/
theorem bareIn_append (ht : Fragment t ts dot) (h : Fragment v (ts ++ us) dot')
    (hus : bareWords us = []) : BareIn v ↔ BareIn t := by
  rw [bareIn_iff ht.lexes, bareIn_iff h.lexes, bareWords_append ht.run, hus, List.append_nil]

theorem not_bareIn_bracketed {opening closing : String}
    (h : Fragment t (bracketed opening ts closing) dot) (hrun : Run true ts)
    (hm : (Token.mark opening).move false = .enter closing) : ¬BareIn t := by
  rw [bareIn_iff h.lexes, bareWords_bracketed hrun hm]
  exact List.not_mem_nil

theorem not_bareIn_parenthesized (h : Fragment t ts dot) :
    ¬BareIn (ScriptMinifier.parenthesized t) :=
  h.parenthesized.not_bareIn_bracketed h.run.within rfl

theorem bareIn_join_unary (ht : Fragment t ts dot) (op : UnaryOperator) :
    BareIn (op.join t) ↔ BareIn t := by
  have hop : op.token.move false = .pass ∧ op.token ≠ .word "in" := by cases op <;> decide
  rw [bareIn_iff ht.lexes, bareIn_iff (ht.join_unary op).lexes, mem_bareWords_cons hop.1,
    or_iff_right hop.2]

theorem not_bareIn_lambda {name : Option String} {params : List String}
    (hname : ∀ n ∈ name, Text.isIdentifier n = true)
    (hparams : ∀ p ∈ params, Text.isName p = true) (hb : Lexes t ts fun _ => True)
    (hrun : Run true ts) : ¬BareIn (functionHead name params ++ braced t) := by
  have hkeyword : "in" ∈ keywords := by decide
  have hlambda := Fragment.lambda
    (fun n hn => ⟨Text.isName_of_isIdentifier (hname n hn), Text.not_mem_structural (hname n hn)⟩)
    hparams hb hrun
  have hlist : Run true (separated (params.map fun p => [Token.word p])) :=
    .separated (List.forall_mem_map.2 fun _ _ => .token rfl)
  have hwords : bareWords (functionTokens name params ++ bracketed "\x7b" ts "\x7d") =
      "function" :: name.toList := by
    rw [functionTokens, ← List.map_cons, List.append_assoc, bareWords_words,
      bareWords_append (hlist.bracketed rfl), bareWords_bracketed hlist rfl,
      bareWords_bracketed hrun rfl, List.append_nil, List.append_nil]
  rw [bareIn_iff hlambda.lexes, hwords, List.mem_cons, or_iff_right (by decide), Option.mem_toList]
  exact fun hin => Text.not_mem_keywords (hname "in" hin) hkeyword

variable {α : Type} {text : α → List Char} {tokens : α → List Token} {as : List α}

theorem bareIn_construct (ht : Fragment t ts dot)
    (ha : ∀ a ∈ as, Fragment (text a) (tokens a) false) :
    BareIn ("new ".toList ++ t ++ ScriptMinifier.parenthesized (commaSeparated (as.map text))) ↔
      BareIn t := by
  rw [bareIn_iff (ht.construct ha).lexes, bareIn_iff ht.lexes, List.cons_append,
    mem_bareWords_cons rfl, or_iff_right (by decide), bareWords_append ht.run,
    bareWords_bracketed (run_separated ha) rfl, List.append_nil]

theorem bareIn_commas (ha : ∀ a ∈ as, Fragment (text a) (tokens a) false) :
    BareIn (commaSeparated (as.map text)) ↔ ∃ a ∈ as, BareIn (text a) := by
  induction as with
  | nil => simp [commaSeparated, bareIn_iff lexes_nil, bareWords, bareWordsFrom]
  | cons a as ih =>
    obtain ⟨hfirst, has⟩ := List.forall_mem_cons.1 ha
    cases as with
    | nil => simp [commaSeparated]
    | cons b bs =>
      have hsequence := hfirst.bareIn_sequence (commas (List.cons_ne_nil b bs) has)
      rw [List.exists_mem_cons_iff, ← ih has]
      exact hsequence

end Fragment

end ScriptMinifier.Script
