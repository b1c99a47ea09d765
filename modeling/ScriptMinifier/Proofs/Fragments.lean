import ScriptMinifier.Proofs.Nesting
import ScriptMinifier.Proofs.Operands

namespace ScriptMinifier.Script

open Json.Token (Digits Whole Fraction Exponent)

variable {t u v : List Char} {ts us vs : List Token} {k : Token} {m w : String} {inside : Bool}
  {dot dot' : Bool}

/-- A text that is read as a run wherever an operand may stand. -/
structure Fragment (t : List Char) (ts : List Token) (dot : Bool) : Prop extends
    Operand t ts dot where
  run : Run false ts
  /-- As a statement it is guarded if it begins like another. -/
  begins : ∃ k us, ts = k :: us ∧ (k.isPlain = true ∨ Node.isGuarded t = true)

namespace Run

theorem token (h : k.move inside = .pass) : Run inside [k] := .pass h .nil

theorem separated {tss : List (List Token)} (h : ∀ ts ∈ tss, Run inside ts) :
    Run inside (separated tss) := by
  induction tss with
  | nil => exact .nil
  | cons ts tss ih =>
    cases tss with
    | nil => exact h ts List.mem_cons_self
    | cons us tss =>
      have hcomma : (Token.mark ",").move inside = .pass := by cases inside <;> rfl
      have hrest := ih fun us hus => h us (List.mem_cons_of_mem ts hus)
      exact (h ts List.mem_cons_self).append (.pass hcomma hrest)

end Run

theorem isGuarded_append (h : Node.isGuarded t = true) (u : List Char) :
    Node.isGuarded (t ++ u) = true := by
  simp only [Node.isGuarded, Bool.or_eq_true, List.isPrefixOf_iff_prefix, decide_eq_true_eq] at h ⊢
  rcases h with h | h
  · exact .inl (h.trans (List.prefix_append t u))
  · cases t with
    | nil => cases h
    | cons c t => exact .inr h

theorem withWord_eq_append (t : List Char) (w : String) : ∃ u, withWord t w = t ++ u := by
  unfold withWord
  split
  · split
    · exact ⟨_, rfl⟩
    · exact ⟨_, rfl⟩
  · rename_i hlast
    rw [List.getLast?_eq_none_iff] at hlast
    exact ⟨_, by rw [hlast]; rfl⟩

theorem join_eq_append (op : BinaryOperator) (t u : List Char) : ∃ v, op.join t u = t ++ v := by
  rw [BinaryOperator.join]
  split
  · obtain ⟨v, hv⟩ := withWord_eq_append t op.text
    exact ⟨v ++ spaced u, by rw [hv, List.append_assoc]⟩
  · exact ⟨_, List.append_assoc ..⟩

namespace Fragment

/-- What an operand that begins with a fragment begins with. -/
theorem of_append (h : Fragment t ts dot) (hu : Operand (t ++ u) (ts ++ us) dot')
    (hrun : Run false us) : Fragment (t ++ u) (ts ++ us) dot' := by
  refine ⟨hu, h.run.append hrun, ?_⟩
  obtain ⟨k, vs, rfl, hk⟩ := h.begins
  exact ⟨k, vs ++ us, rfl, hk.imp id fun hk => isGuarded_append hk u⟩

theorem of_plain (h : Operand t (k :: ts) dot) (hk : k.isPlain = true)
    (hmove : k.move false = .pass) (hrun : Run false ts) : Fragment t (k :: ts) dot :=
  ⟨h, .pass hmove hrun, k, ts, rfl, .inl hk⟩

theorem word (hname : Text.isName w = true) (hw : w ∉ structural) (hfunction : w ≠ "function")
    (dot : Bool) : Fragment w.toList [.word w] dot :=
  of_plain (operand_word hname dot) (by simp [Token.isPlain, hfunction])
    (by simp [Token.move, hw]) .nil

theorem quote (s : String) (dot : Bool) : Fragment (Text.quote s) [.string s] dot :=
  of_plain (operand_quote s dot) rfl rfl .nil

theorem parenthesized (h : Fragment t ts dot) :
    Fragment (ScriptMinifier.parenthesized t) (bracketed "(" ts ")") true :=
  ⟨h.toOperand.parenthesized, h.run.within.bracketed rfl, _, _, rfl, .inl rfl⟩

theorem index (h : Fragment t ts dot) (hu : Fragment u us dot') :
    Fragment (t ++ '[' :: u ++ [']']) (ts ++ bracketed "[" us "]") true := by
  have hoperand := h.toOperand.index hu.toOperand
  rw [List.append_assoc] at hoperand ⊢
  exact h.of_append hoperand (hu.run.within.bracketed rfl)

theorem member {name : String} (h : Fragment t ts true) (hname : Text.isName name = true) :
    Fragment (t ++ '.' :: name.toList) (ts ++ [.mark ".", .word name]) true :=
  h.of_append (h.toOperand.member hname) (.point rfl .nil)

theorem update (h : Fragment t ts dot) {op : UnaryOperator}
    (hop : op = .increment ∨ op = .decrement) :
    Fragment (t ++ op.text.toList) (ts ++ [.mark op.text]) true := by
  have hsuffix : op.text ∈ steady ∧ (Token.mark op.text).move false = .pass := by
    rcases hop with rfl | rfl <;> decide
  exact h.of_append (h.toOperand.suffixed hsuffix.1) (.token hsuffix.2)

theorem choice {dot'' : Bool} (h : Fragment t ts dot) (hu : Fragment u us dot')
    (hv : Fragment v vs dot'') :
    Fragment (t ++ '?' :: u ++ ':' :: v) (ts ++ .mark "?" :: us ++ .mark ":" :: vs) dot'' := by
  have hoperand := h.toOperand.choice hu.toOperand hv.toOperand
  rw [List.append_assoc, List.append_assoc] at hoperand ⊢
  exact h.of_append hoperand (.choose rfl hu.run hv.run)

theorem join_unary (h : Fragment t ts dot) (op : UnaryOperator) :
    Fragment (op.join t) (op.token :: ts) dot := by
  have hop : op.token.isPlain = true ∧ op.token.move false = .pass := by
    cases op <;> decide
  exact of_plain (h.toOperand.join_unary op) hop.1 hop.2 h.run

theorem sequence (h : Fragment t ts dot) (hu : Fragment u us dot') :
    Fragment (t ++ ',' :: u) (ts ++ .mark "," :: us) dot' :=
  h.of_append (h.toOperand.steady hu.toOperand (m := ",") (by decide)) (.pass rfl hu.run)

theorem assign (h : Fragment t ts dot) (hu : Fragment u us dot') (op : AssignOperator) :
    Fragment (t ++ op.text.toList ++ u) (ts ++ .mark op.text :: us) dot' := by
  have hop : (Token.mark op.text).move false = .pass := by
    cases op <;> decide
  have hoperand := h.toOperand.assign hu.toOperand op
  rw [List.append_assoc] at hoperand ⊢
  exact h.of_append hoperand (.pass hop hu.run)

theorem join_binary (h : Fragment t ts dot) (hu : Fragment u us dot') (op : BinaryOperator) :
    Fragment (op.join t u) (ts ++ op.token :: us) dot' := by
  have hop : op.token.move false = .pass := by
    cases op <;> decide
  have hoperand := h.toOperand.join_binary hu.toOperand op
  obtain ⟨v, hv⟩ := join_eq_append op t u
  rw [hv] at hoperand ⊢
  exact h.of_append hoperand (.pass hop hu.run)

variable {α : Type} {text : α → List Char} {tokens : α → List Token} {as : List α}

theorem run_separated (ha : ∀ a ∈ as, Fragment (text a) (tokens a) false) :
    Run true (separated (as.map tokens)) :=
  .separated (List.forall_mem_map.2 fun a h => (ha a h).run.within)

theorem applied (h : Fragment t ts dot) (ha : ∀ a ∈ as, Fragment (text a) (tokens a) false) :
    Fragment (t ++ ScriptMinifier.parenthesized (commaSeparated (as.map text)))
      (ts ++ bracketed "(" (separated (as.map tokens)) ")") true :=
  h.of_append (h.toOperand.applied fun a hmem => (ha a hmem).toOperand)
    ((run_separated ha).bracketed rfl)

theorem construct (h : Fragment t ts dot) (ha : ∀ a ∈ as, Fragment (text a) (tokens a) false) :
    Fragment ("new ".toList ++ t ++ ScriptMinifier.parenthesized (commaSeparated (as.map text)))
      (.word "new" :: ts ++ bracketed "(" (separated (as.map tokens)) ")") true :=
  of_plain (h.toOperand.construct fun a hmem => (ha a hmem).toOperand) rfl rfl
    (h.run.append ((run_separated ha).bracketed rfl))

theorem array (ha : ∀ a ∈ as, Fragment (text a) (tokens a) false) :
    Fragment ('[' :: commaSeparated (as.map text) ++ [']'])
      (bracketed "[" (separated (as.map tokens)) "]") true :=
  ⟨operand_array fun a hmem => (ha a hmem).toOperand, (run_separated ha).bracketed rfl, _, _, rfl,
    .inl rfl⟩

theorem commas (hne : as ≠ []) (ha : ∀ a ∈ as, Fragment (text a) (tokens a) false) :
    Fragment (commaSeparated (as.map text)) (separated (as.map tokens)) false := by
  induction as with
  | nil => exact absurd rfl hne
  | cons a as ih =>
    have hfirst := ha a List.mem_cons_self
    cases as with
    | nil => exact hfirst
    | cons b bs => exact hfirst.sequence (ih nofun fun b hb => ha b (List.mem_cons_of_mem a hb))

theorem undotted (h : Fragment t ts dot) : Fragment t ts false where
  start := h.start
  lexes := h.lexes.mono fun _ hc => ⟨hc.1, fun hdot => nomatch hc.2 hdot⟩
  run := h.run
  begins := h.begins

theorem digits (n : Nat) : Fragment (Nat.toDigits 10 n) [.number (.ofNat n)] false :=
  of_plain (operand_digits n) rfl rfl .nil

theorem literal {whole fraction exponent : List Char} (hw : Whole whole) (hf : Fraction fraction)
    (he : Exponent exponent) :
    ∃ x, Fragment (whole ++ (fraction ++ exponent)) [.number x] false := by
  have hends {ds : List Char} (hd : Digits ds) (t : List Char) :
      ∃ l ∈ (t ++ ds).getLast?, Number.isDigit l = true := by
    obtain ⟨l, hl⟩ := Option.isSome_iff_exists.1 (List.getLast?_isSome.2 hd.ne_nil)
    refine ⟨l, ?_, hd.all l (List.mem_of_getLast? hl)⟩
    rw [List.getLast?_append_of_ne_nil _ hd.ne_nil]
    exact hl
  have hlast : ∃ l ∈ (whole ++ (fraction ++ exponent)).getLast?, Number.isDigit l = true := by
    obtain rfl | ⟨sign, ds, -, hd, rfl⟩ := he
    · obtain rfl | ⟨ds, hd, rfl⟩ := hf
      · simpa using hends hw.toDigits []
      · simpa using hends hd (whole ++ ['.'])
    · simpa using hends hd (whole ++ (fraction ++ ['e', sign]))
  have hhead : ∃ c ∈ (whole ++ (fraction ++ exponent)).head?, Number.isDigit c = true := by
    obtain ⟨c, cs, rfl⟩ := List.exists_cons_of_ne_nil hw.ne_nil
    exact ⟨c, rfl, hw.all c List.mem_cons_self⟩
  obtain ⟨x, hx⟩ := Option.isSome_iff_exists.1 (isSome_number? hw hf he)
  exact ⟨x, of_plain (operand_of_digits hhead hlast (lexes_literal hw hf he hx)) rfl rfl .nil⟩

theorem negated (h : Fragment t ts dot) (ht : t.head? ≠ some '-') :
    Fragment ('-' :: t) (.mark "-" :: ts) dot := by
  have hjoin : UnaryOperator.negate.join t = '-' :: t := by
    simp [UnaryOperator.join, UnaryOperator.isWord, UnaryOperator.clashes, UnaryOperator.text, ht]
  exact hjoin ▸ h.join_unary .negate

/-- Whatever a number is, its text is a fragment, in which no word stands. -/
theorem sourceText (x : Float) :
    ∃ ts, Fragment (Number.sourceText x) ts false ∧ ∀ w, .word w ∉ ts := by
  have hzero : Fragment ['0'] [.number (.ofNat 0)] false := digits 0
  have hone : Fragment ['1'] [.number (.ofNat 1)] false := digits 1
  have hdiv : BinaryOperator.div.token = .mark "/" := rfl
  rw [Number.sourceText]
  cases hexact : Exact.ofFloat x with
  | nan => exact ⟨_, hzero.join_binary hzero .div, by simp [hdiv]⟩
  | infinite negative =>
    cases negative with
    | false => exact ⟨_, hone.join_binary hzero .div, by simp [hdiv]⟩
    | true => exact ⟨_, (hone.negated (by decide)).join_binary hzero .div, by simp [hdiv]⟩
  | finite negative m q =>
    dsimp only
    by_cases hm : m = 0
    · rw [if_pos hm]
      cases negative with
      | false => exact ⟨_, hzero, by simp⟩
      | true => exact ⟨_, hzero.negated (by decide), by simp⟩
    · obtain ⟨whole, fraction, exponent, hw, hf, he, htext⟩ := Layout.exists_positive .script hm q
      obtain ⟨y, hy⟩ := literal hw hf he
      rw [if_neg hm, Number.text, hexact]
      dsimp only
      rw [if_neg hm, htext]
      cases negative with
      | false => exact ⟨_, hy, by simp⟩
      | true =>
        refine ⟨_, hy.negated ?_, by simp⟩
        obtain ⟨c, cs, rfl⟩ := List.exists_cons_of_ne_nil hw.ne_nil
        rintro ⟨⟩
        cases hw.all '-' List.mem_cons_self

end Fragment

namespace Lexes

variable {next : Char → Prop} {params : List String}

/-- A text that nothing runs into, before another. -/
theorem before_any (h : Lexes t ts fun _ => True) (hu : Lexes u us next) :
    Lexes (t ++ u) (ts ++ us) next := by
  intro rest hrest
  rw [List.append_assoc, h _ fun _ _ => trivial, hu rest hrest, Option.map_map]
  congr 1
  funext vs
  simp

theorem braced (h : Lexes t ts fun _ => True) :
    Lexes (ScriptMinifier.braced t) (bracketed "\x7b" ts "\x7d") fun _ => True := by
  have hclosing := h.before_any (lexes_nil.steady (m := "\x7d") (by decide))
  exact hclosing.steady (m := "\x7b") (by decide)

theorem parameters (hparams : ∀ p ∈ params, Text.isName p = true) :
    Lexes (ScriptMinifier.parameters params)
      (bracketed "(" (separated (params.map fun p => [.word p])) ")") fun _ => True := by
  have hitems : Lexes (commaSeparated (params.map String.toList) ++ ")".toList)
      (separated (params.map fun p => [.word p]) ++ [.mark ")"]) fun _ => True :=
    lexes_items (fun p hp => operand_word (hparams p hp) false) (by decide)
  exact hitems.steady (m := "(") (by decide)

end Lexes

/-- What is in parentheses after an operand. -/
theorem Operand.before_parenthesis {next : Char → Prop} (h : Operand t ts dot)
    (hu : Lexes ('(' :: u) us next) : Lexes (t ++ '(' :: u) (ts ++ us) next := by
  refine h.lexes_append hu (by simp) ?_
  rintro _ ⟨⟩
  exact ⟨rfl, by decide⟩

/-- The tokens of a function up to its body. -/
def functionTokens (name : Option String) (params : List String) : List Token :=
  .word "function" :: name.toList.map .word ++
    bracketed "(" (separated (params.map fun p => [.word p])) ")"

theorem functionHead_none (params : List String) :
    functionHead none params = "function".toList ++ parameters params := by
  rw [← List.append_nil "function".toList]
  rfl

theorem functionHead_some (name : String) (params : List String) :
    functionHead (some name) params =
      "function".toList ++ ' ' :: (name.toList ++ parameters params) := by
  rw [← List.cons_append, ← List.append_assoc]
  rfl

theorem lexes_functionHead {name : Option String} {params : List String}
    (hname : ∀ n ∈ name, Text.isName n = true) (hparams : ∀ p ∈ params, Text.isName p = true) :
    Lexes (functionHead name params) (functionTokens name params) fun _ => True := by
  have hlist := Lexes.parameters hparams
  have hfunction : Text.isName "function" = true := by decide
  rw [parameters, parenthesized, List.cons_append] at hlist
  cases name with
  | none =>
    rw [functionHead_none]
    exact (operand_word hfunction false).before_parenthesis hlist
  | some name =>
    have hnamed := (operand_word (hname name rfl) false).before_parenthesis hlist
    rw [functionHead_some]
    refine (lexes_word hfunction).append (hnamed.blank (by simp)) (by simp) fun c hc => ?_
    obtain rfl : ' ' = c := Option.some.inj hc
    rfl

theorem Fragment.lambda {name : Option String} {params : List String}
    (hname : ∀ n ∈ name, Text.isName n = true ∧ n ∉ structural)
    (hparams : ∀ p ∈ params, Text.isName p = true) (hb : Lexes t ts fun _ => True)
    (hrun : Run true ts) :
    Fragment (functionHead name params ++ braced t)
      (functionTokens name params ++ bracketed "\x7b" ts "\x7d") true := by
  have hfunction : Text.isName "function" = true := by decide
  have hlexes := (lexes_functionHead (fun n hn => (hname n hn).1) hparams).before_any hb.braced
  obtain ⟨u, hu⟩ : ∃ u, functionHead name params ++ braced t = "function".toList ++ u := by
    cases name with
    | none => exact ⟨_, by rw [functionHead_none, List.append_assoc]⟩
    | some name => exact ⟨_, by rw [functionHead_some, List.append_assoc]⟩
  have hlist : Run false (bracketed "(" (separated (params.map fun p => [Token.word p])) ")") :=
    (Run.separated (List.forall_mem_map.2 fun _ _ => .token rfl)).bracketed rfl
  have hhead : Run false (functionTokens name params) := by
    cases name with
    | none => exact .pass rfl hlist
    | some name =>
      refine .pass rfl (.pass ?_ hlist)
      simp [Token.move, (hname name rfl).2]
  refine ⟨operand_of_lexes ?_ hlexes true, hhead.append (hrun.bracketed rfl), _, _, rfl, .inr ?_⟩
  · rw [hu]
    exact (operand_word hfunction false).start_append u
  · rw [hu, Node.isGuarded, Bool.or_eq_true, List.isPrefixOf_iff_prefix]
    exact .inl (List.prefix_append _ _)

theorem Fragment.object {α : Type} {text : α → List Char} {tokens : α → List Token} {as : List α}
    (ha : ∀ a ∈ as, Operand (text a) (tokens a) false) (hrun : ∀ a ∈ as, Run true (tokens a)) :
    Fragment (braced (commaSeparated (as.map text)))
      (bracketed "\x7b" (separated (as.map tokens)) "\x7d") true := by
  have hlexes := (lexes_items ha (m := "\x7d") (by decide)).steady (m := "\x7b") (by decide)
  have hitems : Run true (separated (as.map tokens)) := .separated (List.forall_mem_map.2 hrun)
  exact ⟨operand_of_lexes ⟨'{', rfl, rfl⟩ hlexes true, hitems.bracketed rfl, _, _, rfl, .inr rfl⟩

theorem operand_propertyKey (key : String) :
    ∃ k, Operand (propertyKey key) [k] false ∧ k.move true = .pass := by
  rw [propertyKey]
  split
  · rename_i hname
    exact ⟨_, operand_word hname false, rfl⟩
  · exact ⟨_, operand_quote key false, rfl⟩

/-- A getter or a setter. -/
theorem operand_accessor {params : List String} (hw : Text.isName w = true)
    (ht : Operand t [k] false) (hparams : ∀ p ∈ params, Text.isName p = true)
    (hu : Lexes u us fun _ => True) :
    Operand (w.toList ++ ' ' :: (t ++ (parameters params ++ braced u)))
      (.word w :: k :: (bracketed "(" (separated (params.map fun p => [.word p])) ")" ++
        bracketed "\x7b" us "\x7d")) false := by
  have hrest := (Lexes.parameters hparams).before_any hu.braced
  rw [parameters, parenthesized, List.cons_append, List.cons_append] at hrest
  have hkey := ht.before_parenthesis hrest
  have hlexes := (lexes_word hw).append (hkey.blank (by simp)) (by simp) fun c hc => by
    obtain rfl : ' ' = c := Option.some.inj hc
    rfl
  exact operand_of_lexes ((operand_word hw false).start_append _) hlexes false

end ScriptMinifier.Script
