import Mathlib.Data.List.TakeWhile
import ScriptMinifier.Json.Reader
import ScriptMinifier.Json.Writer
import ScriptMinifier.Proofs.Decimals

namespace ScriptMinifier.Json

/-- A value of which nothing is lost in writing: its texts are whole and its numbers are numbers. -/
inductive Written : Json → Prop
  | null : Written null
  | bool (b : Bool) : Written (bool b)
  | number {lexeme : List Char} (h : Token.isNumber lexeme = true) : Written (number lexeme)
  | string (s : String) : Written (ofString s)
  | array {items : List Json} (h : ∀ v ∈ items, Written v) : Written (array items)
  | object {fields : List (Option String × Json)} (hkeys : ∀ f ∈ fields, f.1.isSome = true)
    (h : ∀ f ∈ fields, Written f.2) : Written (object fields)

mutual

/-- The tokens of a value. -/
def tokens : Json → List Token
  | null => [.null]
  | bool b => [.bool b]
  | number lexeme => [.number lexeme]
  | string s => [.string s]
  | array items => .beginArray :: tokensOfItems items ++ [.endArray]
  | object fields => .beginObject :: tokensOfFields fields ++ [.endObject]

/-- The tokens between the brackets of an array. -/
def tokensOfItems : List Json → List Token
  | [] => []
  | [v] => tokens v
  | v :: vs => tokens v ++ .comma :: tokensOfItems vs

/-- The tokens between the braces of an object. -/
def tokensOfFields : List (Option String × Json) → List Token
  | [] => []
  | [(k, v)] => .string k :: .colon :: tokens v
  | (k, v) :: fields => .string k :: .colon :: tokens v ++ .comma :: tokensOfFields fields

end

namespace Token

/-- The tokens are complete, and a mark that follows is read as a token of its own. -/
structure State.Settled (s : State) (ts : List Token) : Prop where
  finish : Token.finish s = some ts.reverse
  mark {c : Char} : isLowercase c = false → isNumberPart c = false → step s c = start ts c

/-- From between two tokens on, `cs` is read as the tokens `ts`. -/
def Reads (cs : List Char) (ts : List Token) : Prop :=
  ∀ seen, ∃ s, cs.foldlM step ⟨seen, .blank⟩ = some s ∧ s.Settled (ts.reverse ++ seen)

/-- As `Reads`, where the last token needs no mark to end it. -/
def Ends (cs : List Char) (ts : List Token) : Prop :=
  ∀ seen, cs.foldlM step ⟨seen, .blank⟩ = some ⟨ts.reverse ++ seen, .blank⟩

variable {cs ds : List Char} {ts us : List Token}

theorem settled_blank : (⟨ts, .blank⟩ : State).Settled ts := ⟨rfl, fun _ _ => rfl⟩

theorem Ends.reads (h : Ends cs ts) : Reads cs ts := fun seen => ⟨_, h seen, settled_blank⟩

theorem Ends.append (hc : Ends cs ts) (hd : Ends ds us) : Ends (cs ++ ds) (ts ++ us) := by
  intro seen
  rw [List.foldlM_append, hc seen]
  simpa using hd (ts.reverse ++ seen)

theorem Ends.append_reads (hc : Ends cs ts) (hd : Reads ds us) : Reads (cs ++ ds) (ts ++ us) := by
  intro seen
  obtain ⟨s, hs, hsettled⟩ := hd (ts.reverse ++ seen)
  refine ⟨s, ?_, by simpa using hsettled⟩
  rw [List.foldlM_append, hc seen]
  exact hs

/-- A mark ends the token before it. -/
theorem Reads.mark (h : Reads cs ts) {c : Char} {t : Token} (hl : isLowercase c = false)
    (hn : isNumberPart c = false) (hc : ∀ seen, start seen c = some ⟨t :: seen, .blank⟩) :
    Ends (cs ++ [c]) (ts ++ [t]) := by
  intro seen
  obtain ⟨s, hs, hsettled⟩ := h seen
  rw [List.foldlM_append, hs]
  change step s c >>= pure = _
  rw [hsettled.mark hl hn, hc]
  simp

theorem scan_of_reads (h : Reads cs ts) : scan cs = some ts := by
  obtain ⟨s, hs, hsettled⟩ := h []
  rw [scan, hs]
  simpa using hsettled.finish

theorem settled_word {seen : List Char} {t : Token} (h : ofWord seen.reverse = some t) :
    (⟨ts, .word seen⟩ : State).Settled (t :: ts) where
  finish := by simp [Token.finish, h]
  mark hl _ := by simp [step, hl, h]

theorem settled_number {seen : List Char} {t : Token} (h : ofNumber seen.reverse = some t) :
    (⟨ts, .number seen⟩ : State).Settled (t :: ts) where
  finish := by simp [Token.finish, h]
  mark _ hn := by simp [step, hn, h]

theorem reads_null : Reads "null".toList [.null] :=
  fun seen => ⟨⟨seen, .word "llun".toList⟩, rfl, settled_word rfl⟩

theorem reads_bool (b : Bool) : Reads (render (.bool b)) [.bool b] := by
  intro seen
  cases b with
  | true => exact ⟨⟨seen, .word "eurt".toList⟩, rfl, settled_word rfl⟩
  | false => exact ⟨⟨seen, .word "eslaf".toList⟩, rfl, settled_word rfl⟩

theorem isNumberPart_of_isDigit {c : Char} (h : Number.isDigit c = true) :
    isNumberPart c = true := by
  simp [isNumberPart, h]

theorem isNumberPart_of_exponent? (h : (Number.exponent? cs).isSome = true) :
    ∀ c ∈ cs, isNumberPart c = true := by
  have hdigits {ds : List Char} {e : Int}
      (h : (if !ds.isEmpty && ds.all Number.isDigit then some e else none).isSome = true) :
      ∀ c ∈ ds, isNumberPart c = true := by
    intro c hc
    cases hall : ds.all Number.isDigit with
    | true => exact isNumberPart_of_isDigit (List.all_eq_true.1 hall c hc)
    | false => simp [hall] at h
  unfold Number.exponent? at h
  split at h
  · exact List.forall_mem_cons.2 ⟨rfl, hdigits h⟩
  · exact List.forall_mem_cons.2 ⟨rfl, hdigits h⟩
  · exact hdigits h

/-- What follows the fraction of a number; `none` when a point has no digits. -/
def afterFraction? (cs : List Char) : Option (List Char) :=
  match cs with
  | '.' :: cs =>
    if (cs.takeWhile Number.isDigit).isEmpty then none else some (cs.dropWhile Number.isDigit)
  | cs => some cs

/-- Nothing, or an exponent. -/
def isExponent : List Char → Bool
  | [] => true
  | c :: cs => (c = 'e' || c = 'E') && (Number.exponent? cs).isSome

/-- A number without a sign. -/
def isUnsigned (cs : List Char) : Bool :=
  let leading := match cs.takeWhile Number.isDigit with
    | [] => false
    | c :: cs => c ≠ '0' || cs.isEmpty
  leading && (afterFraction? (cs.dropWhile Number.isDigit)).any isExponent

theorem any_isExponent (rest? : Option (List Char)) : rest?.any isExponent = match rest? with
    | none => false
    | some [] => true
    | some (c :: cs) => (c = 'e' || c = 'E') && (Number.exponent? cs).isSome := by
  rcases rest? with _ | _ | _ <;> rfl

theorem isNumber_minus (cs : List Char) : isNumber ('-' :: cs) = isUnsigned cs := by
  simp only [isUnsigned, any_isExponent]
  rfl

theorem isNumber_of_head (h : cs.head? ≠ some '-') : isNumber cs = isUnsigned cs := by
  simp only [isUnsigned, any_isExponent]
  unfold isNumber
  split
  · simp at h
  · rfl

/-- A number is one without a sign, with or without a minus before it. -/
theorem exists_unsigned (h : isNumber cs = true) :
    ∃ ds, isUnsigned ds = true ∧ (cs = ds ∨ cs = '-' :: ds) := by
  by_cases hc : cs.head? = some '-'
  · obtain ⟨ds, rfl⟩ := List.head?_eq_some_iff.1 hc
    exact ⟨ds, isNumber_minus ds ▸ h, .inr rfl⟩
  · exact ⟨cs, isNumber_of_head hc ▸ h, .inl rfl⟩

theorem isNumberPart_of_isExponent (h : isExponent cs = true) :
    ∀ c ∈ cs, isNumberPart c = true := by
  cases cs with
  | nil => exact fun c hc => nomatch hc
  | cons c cs =>
    obtain ⟨hc, hcs⟩ := Bool.and_eq_true_iff.1 h
    refine List.forall_mem_cons.2 ⟨?_, isNumberPart_of_exponent? hcs⟩
    obtain rfl | rfl : c = 'e' ∨ c = 'E' := by simpa using hc
    · rfl
    · rfl

theorem isNumberPart_of_isUnsigned (h : isUnsigned cs = true) :
    ∀ c ∈ cs, isNumberPart c = true := by
  have hdigits (ds : List Char) : ∀ c ∈ ds.takeWhile Number.isDigit, isNumberPart c = true :=
    fun c hc => isNumberPart_of_isDigit (List.mem_takeWhile_imp hc)
  have htail := (Bool.and_eq_true_iff.1 h).2
  rw [← List.takeWhile_append_dropWhile (p := Number.isDigit) (l := cs)]
  refine List.forall_mem_append.2 ⟨hdigits cs, ?_⟩
  generalize cs.dropWhile Number.isDigit = ds at htail
  unfold afterFraction? at htail
  split at htail
  · rename_i fraction
    split at htail
    · cases htail
    · refine List.forall_mem_cons.2 ⟨rfl, ?_⟩
      rw [← List.takeWhile_append_dropWhile (p := Number.isDigit) (l := fraction)]
      exact List.forall_mem_append.2 ⟨hdigits fraction, isNumberPart_of_isExponent htail⟩
  · exact isNumberPart_of_isExponent htail

/-- A number without a sign begins with a digit. -/
theorem exists_digit (h : isUnsigned cs = true) :
    ∃ c rest, cs = c :: rest ∧ Number.isDigit c = true := by
  have hlead := (Bool.and_eq_true_iff.1 h).1
  cases hw : cs.takeWhile Number.isDigit with
  | nil =>
    rw [hw] at hlead
    cases hlead
  | cons c whole =>
    have hcs : cs = c :: (whole ++ cs.dropWhile Number.isDigit) := by
      rw [← List.cons_append, ← hw, List.takeWhile_append_dropWhile]
    exact ⟨c, _, hcs, List.mem_takeWhile_imp (hw ▸ List.mem_cons_self)⟩

theorem isNumberPart_of_isNumber (h : isNumber cs = true) : ∀ c ∈ cs, isNumberPart c = true := by
  obtain ⟨ds, hds, rfl | rfl⟩ := exists_unsigned h
  · exact isNumberPart_of_isUnsigned hds
  · exact List.forall_mem_cons.2 ⟨rfl, isNumberPart_of_isUnsigned hds⟩

theorem start_digit {c : Char} (h : Number.isDigit c = true) (seen : List Token) :
    start seen c = some ⟨seen, .number [c]⟩ := by
  unfold start
  split <;> first | cases h | skip
  have hspace : isSpace c = false := by
    simp only [isSpace, Bool.or_eq_false_iff, decide_eq_false_iff_not]
    refine ⟨⟨⟨?_, ?_⟩, ?_⟩, ?_⟩ <;> rintro rfl <;> cases h
  have hletter : isLowercase c = false := by
    simp [Number.isDigit, isLowercase, Char.le_def, UInt32.le_iff_toNat_le] at h ⊢
    omega
  simp [hspace, hletter, h]

theorem start_of_isNumber (h : isNumber cs = true) :
    ∃ c rest, cs = c :: rest ∧ ∀ seen, start seen c = some ⟨seen, .number [c]⟩ := by
  obtain ⟨ds, hds, rfl | rfl⟩ := exists_unsigned h
  · obtain ⟨c, rest, rfl, hc⟩ := exists_digit hds
    exact ⟨c, rest, rfl, start_digit hc⟩
  · exact ⟨'-', ds, rfl, fun _ => rfl⟩

theorem reads_number (h : isNumber cs = true) : Reads cs [.number cs] := by
  intro seen
  obtain ⟨c, rest, rfl, hc⟩ := start_of_isNumber h
  have hparts := (List.forall_mem_cons.1 (isNumberPart_of_isNumber h)).2
  have hrest (read : List Char) : rest.foldlM step ⟨seen, .number read⟩ =
      some ⟨seen, .number (rest.reverse ++ read)⟩ := by
    clear h hc
    induction rest generalizing read with
    | nil => rfl
    | cons d rest ih =>
      obtain ⟨hd, hparts⟩ := List.forall_mem_cons.1 hparts
      rw [List.foldlM_cons]
      simp only [step, hd, if_true]
      refine (ih hparts (d :: read)).trans ?_
      simp
  have hnumber : ofNumber (rest.reverse ++ [c]).reverse = some (.number (c :: rest)) := by
    simp [ofNumber, h]
  refine ⟨_, ?_, settled_number hnumber⟩
  rw [List.foldlM_cons]
  change start seen c >>= _ = _
  rw [hc]
  exact hrest [c]

/-- Code points are characters again. -/
theorem decodeText_map (cs : List Char) : decodeText (cs.map Char.toNat) = some cs := by
  induction cs with
  | nil => rfl
  | cons c cs ih =>
    have hvalid : c.toNat < 0xD800 ∨ 0xE000 ≤ c.toNat := by
      rcases c.valid with h | h
      · exact .inl h
      · exact .inr h.1
    have hcond : (decide (c.toNat < 0xD800) || decide (0xE000 ≤ c.toNat)) = true := by
      simpa using hvalid
    rw [List.map_cons, decodeText.eq_def]
    dsimp only
    rw [if_pos hcond, ih, Char.ofNat_toNat]
    rfl

/-- Hexadecimal digits put their value together. -/
theorem foldlM_hex (seen : List Token) (codes : List Nat) (width left n value : Nat) :
    (Text.hex width n).foldlM step ⟨seen, .hex codes (width + left + 1) value⟩ =
      some ⟨seen, .hex codes (left + 1) (value * 16 ^ width + n % 16 ^ width)⟩ := by
  induction width generalizing left n with
  | zero => simp [Text.hex, Nat.mod_one]
  | succ width ih =>
    have hdigit : n % 16 < 16 := Nat.mod_lt _ (by decide)
    have hvalue : 16 * (value * 16 ^ width + n / 16 % 16 ^ width) + n % 16 =
        value * 16 ^ (width + 1) + n % 16 ^ (width + 1) := by
      rw [Nat.pow_succ', Nat.mod_mul]
      ring
    rw [Text.hex, List.foldlM_append, Nat.add_right_comm width 1 left, Nat.add_assoc width left 1,
      ih (left + 1)]
    simp [step, Number.digitValue_digitChar hdigit, hdigit, hvalue]

theorem foldlM_escapeChar (seen : List Token) (codes : List Nat) (c : Char) :
    (escapeChar c).foldlM step ⟨seen, .string codes⟩ = some ⟨seen, .string (c.toNat :: codes)⟩ := by
  unfold escapeChar
  split_ifs with hquote hbackslash hbackspace hfeed hline hreturn htab hcontrol
  · rw [hquote]
    rfl
  · rw [hbackslash]
    rfl
  · rw [hbackspace]
    rfl
  · rw [hfeed]
    rfl
  · rw [hline]
    rfl
  · rw [hreturn]
    rfl
  · rw [htab]
    rfl
  · have hlast : c.toNat % 16 < 16 := Nat.mod_lt _ (by decide)
    have hvalue : 16 * (c.toNat / 16 % 4096) + c.toNat % 16 = c.toNat := by omega
    change (Text.hex 4 c.toNat).foldlM step ⟨seen, .hex codes (3 + 0 + 1) 0⟩ = _
    rw [Text.hex, List.foldlM_append, foldlM_hex seen codes 3 0 (c.toNat / 16) 0]
    simp [step, Number.digitValue_digitChar hlast, hlast, hvalue]
  · simp [step, hquote, hbackslash, hcontrol]

theorem foldlM_escape (seen : List Token) (codes : List Nat) (cs : List Char) :
    (cs.flatMap escapeChar).foldlM step ⟨seen, .string codes⟩ =
      some ⟨seen, .string ((cs.map Char.toNat).reverse ++ codes)⟩ := by
  induction cs generalizing codes with
  | nil => rfl
  | cons c cs ih =>
    rw [List.flatMap_cons, List.foldlM_append, foldlM_escapeChar]
    refine (ih (c.toNat :: codes)).trans ?_
    simp

theorem ends_quote (s : String) : Ends (quote (some s)) [.string (some s)] := by
  intro seen
  have hopen : step ⟨seen, .blank⟩ '"' = some ⟨seen, .string []⟩ := rfl
  rw [quote, List.cons_append, List.foldlM_cons, hopen]
  change ((s.toList.flatMap escapeChar) ++ ['"']).foldlM step ⟨seen, .string []⟩ = _
  rw [List.foldlM_append, foldlM_escape]
  simp [step, decodeText_map]

end Token

open Token (Reads Ends)

variable {v : Json} {items : List Json} {fields : List (Option String × Json)}

theorem reads_renderItems (hne : items ≠ []) (h : ∀ v ∈ items, Reads v.render v.tokens) :
    Reads (renderItems items) (tokensOfItems items) := by
  induction items with
  | nil => exact absurd rfl hne
  | cons v items ih =>
    obtain ⟨hv, hitems⟩ := List.forall_mem_cons.1 h
    cases items with
    | nil => exact hv
    | cons w items =>
      have hcomma : Ends (v.render ++ [',']) (v.tokens ++ [.comma]) := hv.mark rfl rfl fun _ => rfl
      simpa [renderItems, tokensOfItems] using
        hcomma.append_reads (ih (List.cons_ne_nil _ _) hitems)

theorem reads_field {k : Option String} (hk : k.isSome = true) (hv : Reads v.render v.tokens) :
    Reads (quote k ++ ':' :: v.render) (.string k :: .colon :: v.tokens) := by
  obtain ⟨s, rfl⟩ := Option.isSome_iff_exists.1 hk
  have hcolon : Ends (quote (some s) ++ [':']) ([.string (some s)] ++ [.colon]) :=
    (Token.ends_quote s).reads.mark rfl rfl fun _ => rfl
  simpa using hcolon.append_reads hv

theorem reads_renderFields (hne : fields ≠ []) (hkeys : ∀ f ∈ fields, f.1.isSome = true)
    (h : ∀ f ∈ fields, Reads f.2.render f.2.tokens) :
    Reads (renderFields fields) (tokensOfFields fields) := by
  induction fields with
  | nil => exact absurd rfl hne
  | cons f fields ih =>
    obtain ⟨k, v⟩ := f
    obtain ⟨hv, hfields⟩ := List.forall_mem_cons.1 h
    obtain ⟨hk, hkeys⟩ := List.forall_mem_cons.1 hkeys
    have hfield := reads_field hk hv
    cases fields with
    | nil => exact hfield
    | cons g fields =>
      have hcomma := hfield.mark (c := ',') (t := .comma) rfl rfl fun _ => rfl
      simpa [renderFields, tokensOfFields] using
        hcomma.append_reads (ih (List.cons_ne_nil _ _) hkeys hfields)

/-- The text of a value is read as its tokens. -/
theorem reads_render (h : v.Written) : Reads v.render v.tokens := by
  induction h with
  | null => exact Token.reads_null
  | bool b => exact Token.reads_bool b
  | number h => exact Token.reads_number h
  | string s => exact (Token.ends_quote s).reads
  | @array items _ ih =>
    have hopen : Ends ['['] [.beginArray] := fun _ => rfl
    by_cases hne : items = []
    · subst hne
      have hclose : Ends [']'] [.endArray] := fun _ => rfl
      exact (hopen.append hclose).reads
    · have hitems := hopen.append_reads (reads_renderItems hne ih)
      exact (hitems.mark (c := ']') (t := .endArray) rfl rfl fun _ => rfl).reads
  | @object fields hkeys _ ih =>
    have hopen : Ends ['\x7b'] [.beginObject] := fun _ => rfl
    by_cases hne : fields = []
    · subst hne
      have hclose : Ends ['\x7d'] [.endObject] := fun _ => rfl
      exact (hopen.append hclose).reads
    · have hfields := hopen.append_reads (reads_renderFields hne hkeys ih)
      exact (hfields.mark (c := '\x7d') (t := .endObject) rfl rfl fun _ => rfl).reads

open Reader (Open State beginValue)

/-- From a place for a value on, the tokens of a value are read as this value. -/
def ReadBack (v : Json) : Prop :=
  ∀ stack, v.tokens.foldlM Reader.step (.value stack) = some (.after v stack)

/-- The first item of an array is read as any other. -/
theorem foldlM_firstItem (v : Json) (stack : List Open) (ts : List Token) :
    (v.tokens ++ ts).foldlM Reader.step (.firstItem stack) =
      (v.tokens ++ ts).foldlM Reader.step (.value (.array [] :: stack)) := by
  cases v <;> rfl

theorem foldlM_items {v : Json} {vs : List Json} {stack : List Open} (hv : ReadBack v)
    (hvs : ∀ w ∈ vs, ReadBack w) (seen : List Json) :
    (tokensOfItems (v :: vs) ++ [Token.endArray]).foldlM Reader.step
      (.value (.array seen :: stack)) = some (.after (.array (seen.reverse ++ v :: vs)) stack) := by
  induction vs generalizing v seen with
  | nil =>
    show (v.tokens ++ [Token.endArray]).foldlM Reader.step _ = _
    rw [List.foldlM_append, hv]
    simp [Reader.step]
  | cons w vs ih =>
    obtain ⟨hw, hvs⟩ := List.forall_mem_cons.1 hvs
    show ((v.tokens ++ .comma :: tokensOfItems (w :: vs)) ++
      [Token.endArray]).foldlM Reader.step _ = _
    rw [List.append_assoc, List.foldlM_append, hv]
    refine (ih hw hvs (v :: seen)).trans ?_
    simp

theorem foldlM_field {k : Option String} {v : Json} (hv : ReadBack v)
    {seen : List (Option String × Json)} {stack : List Open} :
    (Token.string k :: .colon :: v.tokens).foldlM Reader.step (.key seen stack) =
      some (.after v (.object seen k :: stack)) :=
  hv _

/-- The first key of an object is read as any other. -/
theorem foldlM_firstKey {k : Option String} {stack : List Open} {ts : List Token} :
    (Token.string k :: ts).foldlM Reader.step (.firstKey stack) =
      (Token.string k :: ts).foldlM Reader.step (.key [] stack) :=
  rfl

theorem foldlM_fields {f : Option String × Json} {fs : List (Option String × Json)}
    {stack : List Open} (hf : ReadBack f.2) (hfs : ∀ g ∈ fs, ReadBack g.2)
    (seen : List (Option String × Json)) :
    (tokensOfFields (f :: fs) ++ [Token.endObject]).foldlM Reader.step (.key seen stack) =
      some (.after (.object (seen.reverse ++ f :: fs)) stack) := by
  induction fs generalizing f seen with
  | nil =>
    show ((Token.string f.1 :: .colon :: f.2.tokens) ++ [Token.endObject]).foldlM Reader.step _ = _
    rw [List.foldlM_append, foldlM_field hf]
    simp [Reader.step]
  | cons g fs ih =>
    obtain ⟨hg, hfs⟩ := List.forall_mem_cons.1 hfs
    show (((Token.string f.1 :: .colon :: f.2.tokens) ++ .comma :: tokensOfFields (g :: fs)) ++
      [Token.endObject]).foldlM Reader.step _ = _
    rw [List.append_assoc, List.foldlM_append, foldlM_field hf]
    refine (ih hg hfs (f :: seen)).trans ?_
    simp

/-- The tokens of a value are put together to it. -/
theorem readBack (h : v.Written) : ReadBack v := by
  induction h with
  | null | bool | number | string => exact fun _ => rfl
  | @array items _ ih =>
    intro stack
    cases items with
    | nil => rfl
    | cons v items =>
      obtain ⟨hv, hitems⟩ := List.forall_mem_cons.1 ih
      have hfirst : ∃ ts, tokensOfItems (v :: items) ++ [Token.endArray] = v.tokens ++ ts := by
        cases items with
        | nil => exact ⟨_, rfl⟩
        | cons w items => exact ⟨_, List.append_assoc _ _ _⟩
      obtain ⟨ts, hts⟩ := hfirst
      show (tokensOfItems (v :: items) ++ [Token.endArray]).foldlM Reader.step
        (.firstItem stack) = _
      rw [hts, foldlM_firstItem, ← hts]
      exact foldlM_items hv hitems []
  | @object fields _ _ ih =>
    intro stack
    cases fields with
    | nil => rfl
    | cons f fields =>
      obtain ⟨hf, hfields⟩ := List.forall_mem_cons.1 ih
      have hfirst : ∃ ts,
          tokensOfFields (f :: fields) ++ [Token.endObject] = .string f.1 :: ts := by
        cases fields <;> exact ⟨_, rfl⟩
      obtain ⟨ts, hts⟩ := hfirst
      show (tokensOfFields (f :: fields) ++ [Token.endObject]).foldlM Reader.step
        (.firstKey stack) = _
      rw [hts, foldlM_firstKey, ← hts]
      exact foldlM_fields hf hfields []

/-- Written JSON reads back. -/
theorem parse?_render (h : v.Written) : parse? v.render = some v := by
  have htokens := readBack h []
  rw [parse?, Token.scan_of_reads (reads_render h)]
  change ofTokens? v.tokens = some v
  rw [ofTokens?, htokens]

end ScriptMinifier.Json
