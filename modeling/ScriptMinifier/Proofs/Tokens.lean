import ScriptMinifier.Json.Token
import ScriptMinifier.Proofs.Grammar
import ScriptMinifier.Text.Blank

namespace ScriptMinifier.Script

/-- The punctuators. -/
def marks : List String :=
  ["\x7b", "\x7d", "(", ")", "[", "]", ".", ";", ",", "<", ">", "<=", ">=", "==", "!=", "===", "!==",
   "+", "-", "*", "%", "++", "--", "<<", ">>", ">>>", "&", "|", "^", "!", "~", "&&", "||", "?", ":",
   "=", "+=", "-=", "*=", "%=", "<<=", ">>=", ">>>=", "&=", "|=", "^=", "/", "/="]

def isLineEnd (c : Char) : Bool :=
  c = '\n' || c = '\r' || c.toNat = 0x2028 || c.toNat = 0x2029

/-- Whether the first `*/` of a text is its end. -/
def closesComment : List Char → Bool
  | [] => false
  | '*' :: '/' :: cs => cs.isEmpty
  | _ :: cs => closesComment cs

/-- A blank or a line end, or a comment. The next-line character is no blank in a script. -/
def isGap : List Char → Bool
  | [c] => Text.isBlank c && c.toNat ≠ 0x85
  | '/' :: '*' :: cs => closesComment cs
  | '/' :: '/' :: cs => cs.all fun c => !isLineEnd c
  | _ => false

/-- A numeric literal: hexadecimal, or decimal without a needless leading zero. -/
def number? (cs : List Char) : Option Float :=
  let decimal := (Decimal.parse? cs).map Decimal.toFloat
  match cs with
  | '0' :: c :: ds =>
    if c = 'x' || c = 'X' then
      if !ds.isEmpty && ds.all (Number.digitValue · < 16) then
        some (.ofNat (ds.foldl (fun n d => 16 * n + Number.digitValue d) 0))
      else none
    else if Number.isDigit c then none
    else decimal
  | _ => decimal

/-- The code that a character has after a backslash, if it announces no digits. -/
def escapedCode : Char → Nat
  | 'b' => 8
  | 't' => 9
  | 'n' => 10
  | 'v' => 11
  | 'f' => 12
  | 'r' => 13
  | c => c.toNat

/-- The value of hexadecimal digits, if they all are. -/
def hexValue? (ds : List Char) : Option Nat :=
  if ds.all (Number.digitValue · < 16) then
    some (ds.foldl (fun n d => 16 * n + Number.digitValue d) 0)
  else none

/-- The codes of a string literal after its first quote, up to the quote that ends it. A backslash
before a line end stands for nothing. -/
def stringCodes? (quote : Char) : List Char → Option (List Nat)
  | [] => none
  | '\\' :: 'x' :: a :: b :: cs =>
    (hexValue? [a, b]).bind fun n => (stringCodes? quote cs).map (n :: ·)
  | '\\' :: 'u' :: a :: b :: c :: d :: cs =>
    (hexValue? [a, b, c, d]).bind fun n => (stringCodes? quote cs).map (n :: ·)
  | '\\' :: '\r' :: '\n' :: cs => stringCodes? quote cs
  | '\\' :: '0' :: cs =>
    if cs.head?.any Number.isDigit then none else (stringCodes? quote cs).map (0 :: ·)
  | '\\' :: c :: cs =>
    if isLineEnd c then stringCodes? quote cs
    else if c = 'x' || c = 'u' || Number.isDigit c then none
    else (stringCodes? quote cs).map (escapedCode c :: ·)
  | c :: cs =>
    if c = quote then if cs.isEmpty then some [] else none
    else if c = '\\' || isLineEnd c then none
    else (stringCodes? quote cs).map (c.toNat :: ·)

/-- A string literal whose halves of surrogate pairs belong together. -/
def string? : List Char → Option String
  | c :: cs =>
    if c = '"' || c = '\'' then do
      return .ofList (← Json.Token.decodeText (← stringCodes? c cs))
    else none
  | [] => none

/-- What a text is as a whole: a token, or a blank or a comment, which stand for nothing. Regular
expressions are left out, as in the grammar: a slash is a division. -/
def element? (cs : List Char) : Option (List Token) :=
  if Text.isName (.ofList cs) then some [.word (.ofList cs)]
  else if isGap cs then some []
  else if marks.contains (.ofList cs) then some [.mark (.ofList cs)]
  else match number? cs, string? cs with
    | some x, _ => some [.number x]
    | none, some s => some [.string s]
    | none, none => none

/-- The longest element of at most `n` characters that a text begins with, and what follows it. -/
def longest? (cs : List Char) : Nat → Option (List Token × List Char)
  | 0 => none
  | n + 1 =>
    match element? (cs.take (n + 1)) with
    | some ts => some (ts, cs.drop (n + 1))
    | none => longest? cs n

/-- A number must not run into a name or into more digits. -/
def runsOn (ts : List Token) (rest : List Char) : Bool :=
  match ts with
  | [.number _] => rest.head?.any fun c => Text.isNameStart c || Number.isDigit c
  | _ => false

theorem length_longest? {cs rest : List Char} {ts : List Token} {n : Nat}
    (h : longest? cs n = some (ts, rest)) (hn : n ≤ cs.length) : rest.length < cs.length := by
  induction n with
  | zero => cases h
  | succ n ih =>
    rw [longest?] at h
    split at h
    · cases h
      rw [List.length_drop]
      omega
    · exact ih h (by omega)

/-- The tokens of a text. -/
def scan (cs : List Char) : Option (List Token) :=
  if cs = [] then some []
  else match _h : longest? cs cs.length with
    | none => none
    | some (ts, rest) => if runsOn ts rest then none else (scan rest).map (ts ++ ·)
termination_by cs.length
decreasing_by exact length_longest? ‹_› (Nat.le_refl _)

variable {w t u rest : List Char} {ts us : List Token} {n : Nat} {next next' : Char → Prop}

/-- What no longer text extends to an element is the longest. -/
theorem longest?_append (hw : w ≠ []) (helement : element? w = some ts) (hn : w.length ≤ n)
    (hlonger : ∀ c v, c :: v <+: rest → element? (w ++ c :: v) = none)
    (hrest : n ≤ (w ++ rest).length) : longest? (w ++ rest) n = some (ts, rest) := by
  induction n with
  | zero => exact absurd (List.eq_nil_of_length_eq_zero (Nat.le_zero.1 hn)) hw
  | succ n ih =>
    rw [longest?]
    by_cases hlength : w.length = n + 1
    · rw [← hlength, List.take_left, List.drop_left, helement]
    · obtain ⟨m, hm⟩ : ∃ m, n + 1 - w.length = m + 1 := ⟨n - w.length, by omega⟩
      have htake : (w ++ rest).take (n + 1) = w ++ rest.take (m + 1) := by
        rw [List.take_append, hm, List.take_of_length_le hn]
      rw [List.length_append] at hrest
      cases rest with
      | nil =>
        rw [List.length_nil] at hrest
        omega
      | cons c cs =>
        have hprefix : c :: cs.take m <+: c :: cs := List.take_prefix (m + 1) (c :: cs)
        rw [htake, List.take_succ_cons, hlonger c _ hprefix]
        exact ih (by omega) (by rw [List.length_append]; omega)

theorem scan_nil : scan [] = some [] := by
  rw [scan, if_pos rfl]

theorem scan_of_longest? {cs : List Char} (h : longest? cs cs.length = some (ts, rest))
    (hruns : runsOn ts rest = false) : scan cs = (scan rest).map (ts ++ ·) := by
  have hne : cs ≠ [] := by
    rintro rfl
    cases h
  rw [scan, if_neg hne]
  split
  · rename_i hnone
    rw [hnone] at h
    cases h
  · rename_i us rest' hsome
    obtain ⟨rfl, rfl⟩ : us = ts ∧ rest' = rest := by simpa using hsome.symm.trans h
    rw [hruns]
    rfl

/-- Wherever it stands, the text is read as these tokens, if a character that may be next follows it,
or nothing does. -/
def Lexes (t : List Char) (ts : List Token) (next : Char → Prop) : Prop :=
  ∀ rest : List Char, (∀ c ∈ rest.head?, next c) → scan (t ++ rest) = (scan rest).map (ts ++ ·)

theorem lexes_element (hw : w ≠ []) (helement : element? w = some ts)
    (hlonger : ∀ c v, next c → element? (w ++ c :: v) = none)
    (hruns : ∀ c v, next c → runsOn ts (c :: v) = false) : Lexes w ts next := by
  intro rest hrest
  refine scan_of_longest? (longest?_append hw helement (by simp) (fun c v hv => ?_) (Nat.le_refl _))
    ?_
  · obtain ⟨v', rfl⟩ := hv
    exact hlonger c v (hrest c rfl)
  · cases rest with
    | nil =>
      unfold runsOn
      split <;> rfl
    | cons c v => exact hruns c v (hrest c rfl)

namespace Lexes

theorem mono (h : Lexes t ts next) (hnext : ∀ c, next' c → next c) : Lexes t ts next' :=
  fun rest hrest => h rest fun c hc => hnext c (hrest c hc)

/-- One text after the other is read as their tokens. -/
theorem append (ht : Lexes t ts next) (hu : Lexes u us next') (hne : u ≠ [])
    (hnext : ∀ c ∈ u.head?, next c) : Lexes (t ++ u) (ts ++ us) next' := by
  intro rest hrest
  have hhead : ∀ c ∈ (u ++ rest).head?, next c := by
    obtain ⟨c, u, rfl⟩ := List.exists_cons_of_ne_nil hne
    exact hnext
  rw [List.append_assoc, ht _ hhead, hu rest hrest, Option.map_map]
  congr 1
  funext vs
  simp

theorem scan_eq (h : Lexes t ts next) : scan t = some ts := by
  have hscan := h [] fun c hc => nomatch hc
  rw [List.append_nil] at hscan
  rw [hscan, scan_nil, Option.map_some, List.append_nil]

end Lexes

end ScriptMinifier.Script
