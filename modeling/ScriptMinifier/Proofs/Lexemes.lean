import ScriptMinifier.File.Writer
import ScriptMinifier.Proofs.JsonText

namespace ScriptMinifier

open Number (isDigit takeWhile_digits dropWhile_digits)

namespace Json.Token

variable {cs ds : List Char}

/-- Digits, at least one. -/
structure Digits (ds : List Char) : Prop where
  ne_nil : ds ≠ []
  all : ∀ c ∈ ds, isDigit c = true

theorem Digits.append (hd : Digits ds) (hc : ∀ c ∈ cs, isDigit c = true) : Digits (ds ++ cs) :=
  ⟨by simp [hd.ne_nil], List.forall_mem_append.2 ⟨hd.all, hc⟩⟩

/-- Digits without a leading zero, or zero alone. -/
structure Whole (ds : List Char) : Prop extends Digits ds where
  leading : ds.head? = some '0' → ds = ['0']

/-- A fraction with its point, or nothing. -/
def Fraction (cs : List Char) : Prop := cs = [] ∨ ∃ ds, Digits ds ∧ cs = '.' :: ds

/-- An exponent with its sign, or nothing. -/
def Exponent (cs : List Char) : Prop :=
  cs = [] ∨ ∃ sign ds, (sign = '+' ∨ sign = '-') ∧ Digits ds ∧ cs = 'e' :: sign :: ds

theorem Exponent.isExponent (h : Exponent cs) : isExponent cs = true := by
  obtain rfl | ⟨sign, ds, hsign, hds, rfl⟩ := h
  · rfl
  · have hall : (!ds.isEmpty && ds.all isDigit) = true := by
      simpa [hds.ne_nil] using hds.all
    obtain rfl | rfl := hsign <;> simp [Token.isExponent, Number.exponent?, hall]

theorem Exponent.head (h : Exponent cs) : ∀ c ∈ cs.head?, isDigit c = false := by
  obtain rfl | ⟨sign, ds, -, -, rfl⟩ := h
  · exact fun c hc => nomatch hc
  · rintro _ ⟨⟩
    rfl

/-- A whole part, a fraction and an exponent make a number. -/
theorem isUnsigned_append {whole fraction exponent : List Char} (hw : Whole whole)
    (hf : Fraction fraction) (he : Exponent exponent) :
    isUnsigned (whole ++ (fraction ++ exponent)) = true := by
  have hrest : ∀ c ∈ (fraction ++ exponent).head?, isDigit c = false := by
    obtain rfl | ⟨ds, -, rfl⟩ := hf
    · exact he.head
    · rintro _ ⟨⟩
      rfl
  have hafter : afterFraction? (fraction ++ exponent) = some exponent := by
    obtain rfl | ⟨ds, hds, rfl⟩ := hf
    · obtain rfl | ⟨sign, ds, -, -, rfl⟩ := he
      · rfl
      · rfl
    · show (if ((ds ++ exponent).takeWhile isDigit).isEmpty then none
        else some ((ds ++ exponent).dropWhile isDigit)) = some exponent
      rw [takeWhile_digits hds.all he.head, dropWhile_digits hds.all he.head]
      simp [hds.ne_nil]
  rw [isUnsigned, takeWhile_digits hw.all hrest, dropWhile_digits hw.all hrest, hafter,
    Option.any_some, he.isExponent, Bool.and_true]
  cases whole with
  | nil => exact absurd rfl hw.ne_nil
  | cons c whole =>
    by_cases hc : c = '0'
    · subst hc
      have hnil : whole = [] := by simpa using hw.leading rfl
      simp [hnil]
    · simp [hc]

theorem isNumber_of_isUnsigned (h : isUnsigned cs = true) : isNumber cs = true := by
  have hhead : cs.head? ≠ some '-' := by
    obtain ⟨c, rest, rfl, hc⟩ := exists_digit h
    rintro ⟨⟩
    cases hc
  rw [isNumber_of_head hhead, h]

theorem digits_toDigits (n : Nat) : Digits (Nat.toDigits 10 n) :=
  ⟨Nat.toDigits_ne_nil, fun _ => Number.isDigit_of_mem_toDigits⟩

theorem whole_toDigits (n : Nat) : Whole (Nat.toDigits 10 n) where
  toDigits := digits_toDigits n
  leading h := by
    obtain rfl : n = 0 := by
      by_contra hn
      exact Number.head?_toDigits_ne hn h
    rfl

theorem isNumber_toDigits (n : Nat) : isNumber (Nat.toDigits 10 n) = true := by
  have h := isUnsigned_append (whole_toDigits n) (.inl rfl) (.inl rfl)
  rw [List.append_nil, List.append_nil] at h
  exact isNumber_of_isUnsigned h

end Json.Token

open Json.Token

namespace Layout

theorem isDigit_of_mem_zeros (n : Nat) : ∀ c ∈ List.replicate n '0', isDigit c = true := by
  intro c hc
  rw [List.eq_of_mem_replicate hc]
  rfl

/-- Digits with the point in its place are a whole part, a fraction and an exponent. -/
theorem exists_place (layout : Layout) {digits : List Char} (hd : Digits digits)
    (hlead : digits.head? ≠ some '0') (point : Int) : ∃ whole fraction exponent,
    Whole whole ∧ Fraction fraction ∧ Exponent exponent ∧
      layout.place digits point = whole ++ (fraction ++ exponent) := by
  have hwhole {ds : List Char} (hds : Digits ds) (hhead : ds.head? = digits.head?) : Whole ds :=
    { hds with leading := fun h => absurd (hhead ▸ h) hlead }
  have hdrop (n : Nat) (hn : n < digits.length) : Digits (digits.drop n) :=
    ⟨by simpa using hn, fun c hc => hd.all c (List.mem_of_mem_drop hc)⟩
  have htake (n : Nat) (hn : 0 < n) : Whole (digits.take n) := by
    refine hwhole ⟨?_, fun c hc => hd.all c (List.mem_of_mem_take hc)⟩ ?_
    · simp [hd.ne_nil]
      omega
    · rw [List.head?_take, if_neg (by omega)]
  unfold place
  split
  · split
    · have hzero : Whole ['0'] := ⟨⟨by simp, by simp [isDigit]⟩, fun _ => rfl⟩
      have hfraction : Digits (List.replicate (-point).toNat '0' ++ digits) :=
        ⟨by simp [hd.ne_nil], List.forall_mem_append.2 ⟨isDigit_of_mem_zeros _, hd.all⟩⟩
      exact ⟨_, _, [], hzero, .inr ⟨_, hfraction, rfl⟩, .inl rfl, by simp⟩
    · split
      · have hzeros := hd.append (isDigit_of_mem_zeros (point.toNat - digits.length))
        have hhead := hwhole hzeros (List.head?_append_of_ne_nil _ hd.ne_nil)
        have hfraction : Fraction (if layout.fraction then ['.', '0'] else []) := by
          split
          · exact .inr ⟨['0'], ⟨by simp, by simp [isDigit]⟩, rfl⟩
          · exact .inl rfl
        exact ⟨_, _, [], hhead, hfraction, .inl rfl, by simp⟩
      · have hfraction := hdrop point.toNat (by omega)
        exact ⟨_, _, [], htake point.toNat (by omega), .inr ⟨_, hfraction, rfl⟩, .inl rfl, by simp⟩
  · have hfraction : Fraction (if digits.length ≤ 1 then [] else '.' :: digits.drop 1) := by
      split
      · exact .inl rfl
      · exact .inr ⟨_, hdrop 1 (by omega), rfl⟩
    have hexponent : Exponent ('e' :: (if point - 1 < 0 then '-' else '+') ::
        Nat.toDigits 10 (point - 1).natAbs) := by
      refine .inr ⟨_, _, ?_, digits_toDigits _, rfl⟩
      split
      · exact .inr rfl
      · exact .inl rfl
    exact ⟨_, _, _, htake 1 (by decide), hfraction, hexponent, by simp⟩

/-- A positive number is written as a whole part, a fraction and an exponent. -/
theorem exists_positive (layout : Layout) {m : Nat} (hm : m ≠ 0) (q : Int) :
    ∃ whole fraction exponent, Whole whole ∧ Fraction fraction ∧ Exponent exponent ∧
      layout.positive m q = whole ++ (fraction ++ exponent) := by
  have hpos : 0 < (Decimal.shortest layout.tie m q).digits :=
    Decimal.shortest_pos (Nat.pos_of_ne_zero hm)
  exact exists_place layout (digits_toDigits _) (Number.head?_toDigits_ne hpos.ne') _

end Layout

theorem Number.isNumber_fileText? {x : Float} {cs : List Char} (h : Number.fileText? x = some cs) :
    isNumber cs = true := by
  have hpositive {m : Nat} (q : Int) (hm : m ≠ 0) :
      isUnsigned (Layout.file.positive m q) = true := by
    obtain ⟨_, _, _, hwhole, hfraction, hexponent, htext⟩ := Layout.exists_positive .file hm q
    rw [htext]
    exact isUnsigned_append hwhole hfraction hexponent
  unfold Number.fileText? at h
  split at h
  · cases h
  · cases h
  · rename_i negative m q _
    obtain rfl := Option.some.inj h
    have hunsigned :
        isUnsigned (if m = 0 then ['0', '.', '0'] else Layout.file.positive m q) = true := by
      split
      · rfl
      · rename_i hm
        exact hpositive q hm
    cases negative with
    | true => rwa [← isNumber_minus] at hunsigned
    | false => exact isNumber_of_isUnsigned hunsigned

end ScriptMinifier
