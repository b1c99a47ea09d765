import ScriptMinifier.Printed
import ScriptMinifier.Proofs.Lexing
import ScriptMinifier.Tree.Build

namespace ScriptMinifier.Script

/-- The characters of a text that belong to no escape. A backslash that escapes nothing is one. -/
def unescaped : List Char → List Char
  | [] => []
  | '\\' :: _ :: cs => unescaped cs
  | c :: cs => c :: unescaped cs

theorem unescaped_cons {c : Char} (hc : c ≠ '\\') (cs : List Char) :
    unescaped (c :: cs) = c :: unescaped cs := by
  cases cs with
  | nil => simp [unescaped]
  | cons d cs => simp [unescaped, hc]

/-- Hexadecimal digits are nothing but digits. -/
theorem exists_digit_of_mem_hex {c : Char} {width n : Nat} (h : c ∈ Text.hex width n) :
    ∃ k < 16, c = Nat.digitChar k := by
  induction width generalizing n with
  | zero => cases h
  | succ width ih =>
    rw [Text.hex, List.mem_append, List.mem_singleton] at h
    obtain h | rfl := h
    · exact ih h
    · exact ⟨n % 16, Nat.mod_lt _ (by decide), rfl⟩

theorem hexDigit_ne {c : Char} {width n : Nat} (h : c ∈ Text.hex width n) :
    c ≠ '"' ∧ c ≠ '\\' ∧ isLineEnd c = false ∧ Text.isControl c = false := by
  have hall : ∀ k < 16, Nat.digitChar k ≠ '"' ∧ Nat.digitChar k ≠ '\\' ∧
      isLineEnd (Nat.digitChar k) = false ∧ Text.isControl (Nat.digitChar k) = false := by
    decide
  obtain ⟨k, hk, rfl⟩ := exists_digit_of_mem_hex h
  exact hall k hk

theorem unescaped_hex (width n : Nat) (rest : List Char) :
    unescaped (Text.hex width n ++ rest) = Text.hex width n ++ unescaped rest := by
  have hall : ∀ c ∈ Text.hex width n, c ≠ '\\' := fun c hc => (hexDigit_ne hc).2.1
  generalize Text.hex width n = ds at hall
  induction ds with
  | nil => rfl
  | cons c cs ih =>
    rw [List.cons_append, unescaped_cons (hall c List.mem_cons_self),
      ih fun d hd => hall d (List.mem_cons_of_mem c hd), List.cons_append]

/-- The escape of a character ends with it: what follows is read on its own. What it leaves outside
of escapes is no quote and no backslash, and none of it ends the line or is a control character. -/
theorem exists_unescaped_escapeChar (c : Char) :
    ∃ plain : List Char, (∀ rest, unescaped (Text.escapeChar c ++ rest) = plain ++ unescaped rest) ∧
      (∀ d ∈ plain, d ≠ '"' ∧ d ≠ '\\') ∧
      ∀ d ∈ Text.escapeChar c, isLineEnd d = false ∧ Text.isControl d = false := by
  unfold Text.escapeChar
  split_ifs with hbackslash hquote hfeed hreturn htab hseparator hcontrol
  · exact ⟨[], fun _ => rfl, nofun, by simp [isLineEnd, Text.isControl]⟩
  · exact ⟨[], fun _ => rfl, nofun, by simp [isLineEnd, Text.isControl]⟩
  · exact ⟨[], fun _ => rfl, nofun, by simp [isLineEnd, Text.isControl]⟩
  · exact ⟨[], fun _ => rfl, nofun, by simp [isLineEnd, Text.isControl]⟩
  · exact ⟨[], fun _ => rfl, nofun, by simp [isLineEnd, Text.isControl]⟩
  · refine ⟨_, fun rest => unescaped_hex 4 c.toNat rest, fun d hd => ?_, fun d hd => ?_⟩
    · exact ⟨(hexDigit_ne hd).1, (hexDigit_ne hd).2.1⟩
    · obtain rfl | rfl | hd : d = '\\' ∨ d = 'u' ∨ d ∈ Text.hex 4 c.toNat := by simpa using hd
      · decide
      · decide
      · exact (hexDigit_ne hd).2.2
  · refine ⟨_, fun rest => unescaped_hex 2 c.toNat rest, fun d hd => ?_, fun d hd => ?_⟩
    · exact ⟨(hexDigit_ne hd).1, (hexDigit_ne hd).2.1⟩
    · obtain rfl | rfl | hd : d = '\\' ∨ d = 'x' ∨ d ∈ Text.hex 2 c.toNat := by simpa using hd
      · decide
      · decide
      · exact (hexDigit_ne hd).2.2
  · refine ⟨[c], fun rest => unescaped_cons hbackslash rest, ?_, ?_⟩
    · simpa using ⟨hquote, hbackslash⟩
    · have hline : isLineEnd c = false := by simpa [isLineEnd, hfeed, hreturn] using hseparator
      simpa [hline] using hcontrol

theorem of_mem_unescaped_escape {c : Char} {cs : List Char} (h : c ∈ unescaped (Text.escape cs)) :
    c ≠ '"' ∧ c ≠ '\\' := by
  induction cs with
  | nil => cases h
  | cons d cs ih =>
    obtain ⟨plain, hplain, hall, -⟩ := exists_unescaped_escapeChar d
    rw [Text.escape, List.flatMap_cons, hplain, List.mem_append] at h
    obtain h | h := h
    · exact hall c h
    · exact ih h

theorem of_mem_escape {c : Char} {cs : List Char} (h : c ∈ Text.escape cs) :
    isLineEnd c = false ∧ Text.isControl c = false := by
  obtain ⟨d, -, hd⟩ := List.mem_flatMap.1 h
  obtain ⟨-, -, -, hall⟩ := exists_unescaped_escapeChar d
  exact hall c hd

/-- A literal is read as its string. -/
theorem string?_quote (s : String) : string? (Text.quote s) = some s := by
  have hcodes : stringCodes? '"' (Text.escape s.toList ++ ['"']) =
      some (s.toList.map Char.toNat) := by
    rw [stringCodes?_escape, if_pos rfl]
  change (stringCodes? '"' (Text.escape s.toList ++ ['"'])).bind
    (fun codes => (Json.Token.decodeText codes).bind fun cs => some (String.ofList cs)) = some s
  rw [hcodes]
  simp [Json.Token.decodeText_map]

/-- A string is printed as the literal that is read as the string. Between the quotes there is no
line end and no control character, and no quote or backslash outside of an escape. Different
strings have different literals. -/
theorem escape_faithful :
    (∀ s : String,
      (Build.string s).text = '"' :: Text.escape s.toList ++ ['"'] ∧
      string? ('"' :: Text.escape s.toList ++ ['"']) = some s ∧
      (∀ c ∈ unescaped (Text.escape s.toList), c ≠ '"' ∧ c ≠ '\\') ∧
      ∀ c ∈ Text.escape s.toList, isLineEnd c = false ∧ Text.isControl c = false) ∧
    ∀ s t : String, Text.escape s.toList = Text.escape t.toList → s = t := by
  constructor
  · intro s
    have htext : (Build.string s).text = Text.quote s := rfl
    refine ⟨htext, string?_quote s, ?_, ?_⟩
    · intro c hc
      exact of_mem_unescaped_escape hc
    · intro c hc
      exact of_mem_escape hc
  · intro s t h
    have hs := string?_quote s
    have ht := string?_quote t
    rw [Text.quote, h] at hs
    exact Option.some.inj (hs.symm.trans ht)

/-- A quote, a control character before digits, and a line separator. -/
example : Text.escape "\"\x0112\u2028".toList = "\\\"\\x0112\\u2028".toList := by decide

end ScriptMinifier.Script
