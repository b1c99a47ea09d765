import ScriptMinifier.File.Reader
import ScriptMinifier.Proofs.Lexemes
import ScriptMinifier.Tree.Build
import ScriptMinifier.Tree.Walk

namespace ScriptMinifier

namespace Json

mutual

/-- How deep arrays and objects lie within each other. -/
def depth : Json → Nat
  | array items => depthOfItems items + 1
  | object fields => depthOfFields fields + 1
  | _ => 0

/-- The depth of the deepest item. -/
def depthOfItems : List Json → Nat
  | [] => 0
  | v :: vs => max (depth v) (depthOfItems vs)

/-- The depth of the deepest value of a key. -/
def depthOfFields : List (Option String × Json) → Nat
  | [] => 0
  | (_, v) :: fields => max (depth v) (depthOfFields fields)

end

variable {v : Json} {items : List Json} {fields : List (String × Json)} {d : Nat}

theorem depthOfItems_le : depthOfItems items ≤ d ↔ ∀ v ∈ items, v.depth ≤ d := by
  induction items with
  | nil => simp [depthOfItems]
  | cons v items ih => simp [depthOfItems, ih]

theorem exists_depth_array (h : (array items).depth ≤ d) :
    ∃ e, d = e + 1 ∧ ∀ v ∈ items, v.depth ≤ e := by
  obtain _ | e := d
  · simp [depth] at h
  · exact ⟨e, rfl, depthOfItems_le.1 (by simpa [depth] using h)⟩

theorem exists_depth_record (h : (record fields).depth ≤ d) :
    ∃ e, d = e + 1 ∧ ∀ f ∈ fields, f.2.depth ≤ e := by
  obtain _ | e := d
  · simp [record, depth] at h
  · refine ⟨e, rfl, ?_⟩
    have hle : depthOfFields (fields.map fun f => (some f.1, f.2)) ≤ e := by
      simpa [record, depth] using h
    clear h
    induction fields with
    | nil => simp
    | cons f fields ih =>
      obtain ⟨hf, hfields⟩ := Nat.max_le.1 hle
      exact List.forall_mem_cons.2 ⟨hf, ih hfields⟩

theorem exists_depth_variant {name : String} (h : (variant name v).depth ≤ d) :
    ∃ e, d = e + 1 ∧ v.depth ≤ e := by
  obtain ⟨e, rfl, hf⟩ := exists_depth_record h
  exact ⟨e, rfl, hf (name, v) (List.mem_singleton_self _)⟩

@[simp] theorem text?_ofString (s : String) : text? (ofString s) = some s := rfl

@[simp] theorem bool?_bool (b : Bool) : bool? (bool b) = some b := rfl

theorem nat?_ofNat {bound n : Nat} (h : n < bound) : nat? bound (ofNat n) = some n := by
  have hdigits : (Nat.toDigits 10 n).all Number.isDigit = true :=
    List.all_eq_true.2 fun c hc => Number.isDigit_of_mem_toDigits hc
  simp [nat?, ofNat, hdigits, Number.natOfDigits_toDigits, h]

@[simp] theorem named?_named {α : Type} [Named α] (a : α) : named? d (named a) = some a := by
  simp [named?, named, unit?, ofString]

/-- A record reads back as its fields. -/
theorem fields?_record {names mayLack : List String}
    (hnames : fields.map (·.1) = names ++ mayLack) (hnodup : (names ++ mayLack).Nodup) :
    fields? names mayLack (d + 1) (record fields) = some (d, fields) := by
  have hkeys (fs : List (String × Json)) :
      (fs.map fun f => (some f.1, f.2)).mapM (fun f => f.1.map (·, f.2)) = some fs := by
    induction fs with
    | nil => rfl
    | cons f fs ih =>
      rw [List.map_cons, List.mapM_cons, ih]
      rfl
  have hknown : fields.filter (fun f => (names ++ mayLack).contains f.1) = fields := by
    refine List.filter_eq_self.2 fun f hf => ?_
    rw [← hnames]
    simpa using ⟨f.2, hf⟩
  show (known (names ++ mayLack) (fields.map fun f => (some f.1, f.2))).map (d, ·) = _
  rw [known, hkeys]
  show (if ((fields.filter fun f => (names ++ mayLack).contains f.1).map (·.1)).Nodup then
    some (fields.filter fun f => (names ++ mayLack).contains f.1) else none).map (d, ·) = _
  rw [hknown, hnames, if_pos hnodup]
  rfl

theorem list_map {α : Type} {read : Nat → Json → Option α} {write : α → Json} {as : List α}
    (h : ∀ a ∈ as, read d (write a) = some a) :
    list read (d + 1) (.array (as.map write)) = some as := by
  show (as.map write).mapM (read d) = some as
  induction as with
  | nil => rfl
  | cons a as ih =>
    obtain ⟨ha, has⟩ := List.forall_mem_cons.1 h
    rw [List.map_cons, List.mapM_cons, ha, ih has]
    rfl

theorem optional_map {α : Type} {read : Json → Option α} {write : α → Json} {a? : Option α}
    (hnull : ∀ a ∈ a?, write a ≠ null) (h : ∀ a ∈ a?, read (write a) = some a) :
    optional read (some (ofOption (a?.map write))) = some a? := by
  cases a? with
  | none => rfl
  | some a =>
    have hread := h a rfl
    have hne := hnull a rfl
    unfold optional
    split
    · contradiction
    · rename_i heq
      exact absurd (Option.some.inj heq) hne
    · rename_i v _ heq
      obtain rfl : write a = v := Option.some.inj heq
      rw [hread]
      rfl

end Json

open Json

variable {d : Nat}

theorem Position.ofJson?_toJson (p : Position) (h : p.toJson.depth ≤ d) :
    Position.ofJson? d p.toJson = some p := by
  obtain ⟨e, rfl, -⟩ := exists_depth_record h
  rw [Position.ofJson?, Position.toJson, fields?_record rfl (by decide)]
  have hline := nat?_ofNat p.line.toNat_lt
  have hcolumn := nat?_ofNat p.column.toNat_lt
  have hoffset := nat?_ofNat p.offset.toNat_lt
  simp [field, List.lookup_cons, hline, hcolumn, hoffset]

theorem Span.ofJson?_toJson (s : Span) (h : s.toJson.depth ≤ d) :
    Span.ofJson? d s.toJson = some s := by
  obtain ⟨e, rfl, hf⟩ := exists_depth_record h
  simp only [List.forall_mem_cons] at hf
  obtain ⟨hstart, hstop, -⟩ := hf
  rw [Span.ofJson?, Span.toJson, fields?_record rfl (by decide)]
  simp [field, List.lookup_cons, Position.ofJson?_toJson _ hstart, Position.ofJson?_toJson _ hstop]

theorem Label.ofJson?_toJson (l : Label) (h : l.toJson.depth ≤ d) :
    Label.ofJson? d l.toJson = some l := by
  obtain ⟨e, rfl, -⟩ := exists_depth_record h
  rw [Label.ofJson?, Label.toJson, fields?_record rfl (by decide)]
  have hreferences := nat?_ofNat l.references.toNat_lt
  simp [field, List.lookup_cons, hreferences]

section Parts

variable {α : Type} {write : α → Json} {read : Nat → Json → Option α}

/-- What is written for `a` is read as `a` wherever its depth is allowed, below a depth of `d`. -/
def ReadsBack (write : α → Json) (read : Nat → Json → Option α) (d : Nat) (a : α) : Prop :=
  write a ≠ .null ∧ ∀ e < d, (write a).depth ≤ e → read e (write a) = some a

theorem read_optional {a? : Option α} {e : Nat} (h : ∀ a ∈ a?, ReadsBack write read d a) (he : e < d)
    (hdepth : (ofOption (a?.map write)).depth ≤ e) :
    optional (read e) (some (ofOption (a?.map write))) = some a? := by
  refine optional_map (fun a ha => (h a ha).1) fun a ha => ?_
  subst ha
  exact (h a rfl).2 e he hdepth

theorem read_list {as : List α} {e : Nat} (h : ∀ a ∈ as, ReadsBack write read d a) (he : e < d)
    (hdepth : (Json.array (as.map write)).depth ≤ e) :
    list read e (.array (as.map write)) = some as := by
  obtain ⟨e, rfl, hitems⟩ := exists_depth_array hdepth
  exact list_map fun a ha => (h a ha).2 e (by omega) (hitems _ (List.mem_map_of_mem ha))

theorem Binding.ofJson?_toJson (b : Binding α) {e : Nat} (he : e < d)
    (h : ∀ a ∈ b.value, ReadsBack write read d a) (hdepth : (b.map write).toJson.depth ≤ e) :
    Binding.ofJson? read e (b.map write).toJson = some b := by
  obtain ⟨e, rfl, hf⟩ := exists_depth_record hdepth
  simp only [List.forall_mem_cons] at hf
  obtain ⟨-, hvalue, hspan, -⟩ := hf
  rw [Binding.ofJson?, Binding.toJson, fields?_record rfl (by decide)]
  have hvalue' := read_optional h (by omega) hvalue
  have hspan' := Span.ofJson?_toJson b.span hspan
  simp [field, List.lookup_cons, Binding.map, hvalue', hspan']

theorem Property.ofJson?_toJson (p : Property α) {e : Nat} (he : e < d)
    (h : ReadsBack write read d p.value) (hdepth : (p.map write).toJson.depth ≤ e) :
    Property.ofJson? read e (p.map write).toJson = some p := by
  obtain ⟨e, rfl, hf⟩ := exists_depth_record hdepth
  simp only [List.forall_mem_cons] at hf
  obtain ⟨-, -, hvalue, hspan, -⟩ := hf
  rw [Property.ofJson?, Property.toJson, fields?_record rfl (by decide)]
  have hvalue' := h.2 e (by omega) hvalue
  have hspan' := Span.ofJson?_toJson p.span hspan
  simp [field, List.lookup_cons, Property.map, hvalue', hspan']

theorem read_texts (texts : List String) {e : Nat}
    (hdepth : (Json.array (texts.map ofString)).depth ≤ e) :
    list (fun _ => text?) e (.array (texts.map ofString)) = some texts := by
  obtain ⟨e, rfl, -⟩ := exists_depth_array hdepth
  exact list_map fun _ _ => rfl

theorem read_text? (text? : Option String) :
    optional Json.text? (some (ofOption (text?.map ofString))) = some text? := by
  cases text? <;> rfl

theorem Lambda.ofJson?_toJson (l : Lambda α) {e : Nat} (he : e < d)
    (h : ∀ a ∈ l.body, ReadsBack write read d a)
    (hdepth : ({ l with body := l.body.map write } : Lambda Json).toJson.depth ≤ e) :
    Lambda.ofJson? read e ({ l with body := l.body.map write } : Lambda Json).toJson = some l := by
  obtain ⟨e, rfl, hf⟩ := exists_depth_record hdepth
  simp only [List.forall_mem_cons] at hf
  obtain ⟨-, hparams, hbody, -⟩ := hf
  rw [Lambda.ofJson?, Lambda.toJson, fields?_record rfl (by decide)]
  have hparams' := read_texts l.params hparams
  have hbody' := read_list h (by omega) hbody
  simp [field, List.lookup_cons, mark?, read_text?, hparams', hbody']

namespace Form

variable {name : String} {form : Form α} {e : Nat}

/-- A variant is read by its name. -/
theorem ofJson?_variant {v : Json} (hname : ofName? (α := α) name = none) :
    ofJson? read (e + 1) (variant name v) =
      (ofValue? read e v name <|> ofRecord? read e v name) := by
  cases v <;> simp [ofJson?, variant, record, hname]

theorem ofJson?_of_value {v : Json} (hname : ofName? (α := α) name = none)
    (hdepth : (variant name v).depth ≤ e)
    (h : ∀ e', e = e' + 1 → v.depth ≤ e' → ofValue? read e' v name = some form) :
    ofJson? read e (variant name v) = some form := by
  obtain ⟨e, rfl, hv⟩ := exists_depth_variant hdepth
  rw [ofJson?_variant hname, h e rfl hv]
  rfl

theorem ofJson?_of_record {fields : List (String × Json)} (hname : ofName? (α := α) name = none)
    (hvalue : ∀ e v, ofValue? read e v name = none)
    (hdepth : (variant name (record fields)).depth ≤ e)
    (h : ∀ e', e = e' + 2 → (∀ f ∈ fields, f.2.depth ≤ e') →
      ofRecord? read (e' + 1) (record fields) name = some form) :
    ofJson? read e (variant name (record fields)) = some form := by
  obtain ⟨e, rfl, hv⟩ := exists_depth_variant hdepth
  obtain ⟨e, rfl, hf⟩ := exists_depth_record hv
  rw [ofJson?_variant hname, hvalue, h e rfl hf]
  rfl

/-- A layer of syntax reads back if what stands in it does. -/
theorem ofJson?_toJson (form : Form α) (he : e < d)
    (h : ∀ a ∈ form.children, ReadsBack write read d a)
    (hnumber : ∀ x, form = .number x → float? (ofFloat x) = some x)
    (hdepth : (form.map write).toJson.depth ≤ e) :
    ofJson? read e (form.map write).toJson = some form := by
  have hchild (a : α) (ha : a ∈ form.children) {e : Nat} (he : e < d) (hd : (write a).depth ≤ e) :
      read e (write a) = some a := (h a ha).2 e he hd
  have hoptional (a? : Option α) (ha : ∀ a ∈ a?, a ∈ form.children) {e : Nat} (he : e < d)
      (hd : (ofOption (a?.map write)).depth ≤ e) :
      optional (read e) (some (ofOption (a?.map write))) = some a? :=
    read_optional (fun a ha' => h a (ha a ha')) he hd
  have hlist (as : List α) (ha : ∀ a ∈ as, a ∈ form.children) {e : Nat} (he : e < d)
      (hd : (Json.array (as.map write)).depth ≤ e) :
      list read e (.array (as.map write)) = some as :=
    read_list (fun a ha' => h a (ha a ha')) he hd
  cases form with
  | empty | debugger | null | undefined | this =>
    simp [Form.map, Form.toJson, ofJson?, ofString, ofName?]
  | boolean b => cases b <;> simp [Form.map, Form.toJson, ofJson?, ofString, ofName?]
  | string s | identifier s => exact ofJson?_of_value rfl hdepth fun _ _ _ => rfl
  | number x =>
    refine ofJson?_of_value rfl hdepth fun e' he' hv => ?_
    simp [ofValue?, hnumber x rfl]
  | expression a =>
    refine ofJson?_of_value rfl hdepth fun e' he' hv => ?_
    simp [ofValue?, hchild a (by simp [children]) (by omega) hv]
  | block body | finally_ body | program body | array body =>
    refine ofJson?_of_value rfl hdepth fun e' he' hv => ?_
    simp [ofValue?, hlist body (by simp [children]) (by omega) hv]
  | declaration l | function l =>
    refine ofJson?_of_value rfl hdepth fun e' he' hv => ?_
    simp [ofValue?, Lambda.ofJson?_toJson l (by omega) h hv]
  | object ps =>
    refine ofJson?_of_value rfl hdepth fun e' he' hv => ?_
    obtain ⟨e', rfl, hitems⟩ := exists_depth_array hv
    have hps : list (Property.ofJson? read) (e' + 1) (.array ((ps.map (·.map write)).map
        Property.toJson)) = some ps := by
      rw [List.map_map]
      refine list_map fun p hp => ?_
      exact Property.ofJson?_toJson p (by omega) (h _ (List.mem_map_of_mem hp))
        (hitems _ (by simpa using ⟨p, hp, rfl⟩))
    simp [ofValue?, hps, -List.map_map]
  | definitions kind bs hoisted =>
    refine ofJson?_of_record rfl (fun _ _ => rfl) hdepth fun e' he' hf => ?_
    simp only [List.forall_mem_cons] at hf
    obtain ⟨e', rfl, hitems⟩ := exists_depth_array hf.2.1
    have hbs : list (Binding.ofJson? read) (e' + 1) (.array ((bs.map (·.map write)).map
        Binding.toJson)) = some bs := by
      rw [List.map_map]
      refine list_map fun b hb => ?_
      exact Binding.ofJson?_toJson b (by omega) (fun a ha => h a (List.mem_filterMap.2 ⟨b, hb, ha⟩))
        (hitems _ (by simpa using ⟨b, hb, rfl⟩))
    simp [ofRecord?, fields?_record, field, List.lookup_cons, mark?, hbs, -List.map_map]
  | labeled label body =>
    refine ofJson?_of_record rfl (fun _ _ => rfl) hdepth fun e' he' hf => ?_
    simp only [List.forall_mem_cons] at hf
    have hlabel := Label.ofJson?_toJson label hf.1
    have hbody := hchild body (by simp [children]) (by omega) hf.2.1
    simp [ofRecord?, fields?_record, field, List.lookup_cons, hlabel, hbody]
  | loop kind c body =>
    refine ofJson?_of_record rfl (fun _ _ => rfl) hdepth fun e' he' hf => ?_
    simp only [List.forall_mem_cons] at hf
    have hc := hchild c (by cases kind <;> simp [children]) (by omega) hf.2.1
    have hbody := hchild body (by cases kind <;> simp [children]) (by omega) hf.2.2.1
    simp [ofRecord?, fields?_record, field, List.lookup_cons, hc, hbody]
  | _ =>
    -- records of children, options and lists of children, names and texts
    refine ofJson?_of_record rfl (fun _ _ => rfl) hdepth fun e' he' hf => ?_
    have hlt : e' < d := by omega
    simp only [List.forall_mem_cons] at hf
    simp only [children] at hchild hoptional hlist
    simp +contextual [ofRecord?, fields?_record, field, List.lookup_cons, hchild, hoptional, hlist, hf,
      hlt, read_text?]

end Form

end Parts

namespace Json

variable {v : Json} {items : List Json} {fields : List (String × Json)}

@[simp] theorem written_ofString (s : String) : (ofString s).Written := .string s

@[simp] theorem written_bool (b : Bool) : (bool b).Written := .bool b

@[simp] theorem written_ofNat (n : Nat) : (ofNat n).Written := .number (Token.isNumber_toDigits n)

@[simp] theorem written_named {α : Type} [Named α] (a : α) : (named a).Written := .string _

@[simp] theorem written_array : (array items).Written ↔ ∀ v ∈ items, v.Written := by
  refine ⟨fun h => ?_, .array⟩
  cases h with
  | array h => exact h

@[simp] theorem written_record : (record fields).Written ↔ ∀ f ∈ fields, f.2.Written := by
  constructor
  · intro h f hf
    cases h with
    | object _ h => exact h (some f.1, f.2) (List.mem_map_of_mem hf)
  · intro h
    refine .object (fun f hf => ?_) fun f hf => ?_
    · obtain ⟨g, -, rfl⟩ := List.mem_map.1 hf
      rfl
    · obtain ⟨g, hg, rfl⟩ := List.mem_map.1 hf
      exact h g hg

@[simp] theorem written_ofOption {v? : Option Json} :
    (ofOption v?).Written ↔ ∀ v ∈ v?, v.Written := by
  cases v? with
  | none => simpa [ofOption] using Written.null
  | some v => simp [ofOption]

theorem written_ofFloat {x : Float} (h : x.isFinite = true) : (ofFloat x).Written := by
  have htext : ∃ cs, Number.fileText? x = some cs := by
    have hfinite : x.toModel.unpack.isFinite = true := h
    unfold Number.fileText? Exact.ofFloat
    generalize x.toModel.unpack = u at hfinite
    cases u with
    | notANumber | infinity => cases hfinite
    | zero | finite => exact ⟨_, rfl⟩
  obtain ⟨cs, hcs⟩ := htext
  rw [ofFloat, hcs]
  exact .number (Number.isNumber_fileText? hcs)

end Json

@[simp] theorem Span.written_toJson (s : Span) : s.toJson.Written := by
  simp [Span.toJson, Position.toJson]

/-- A layer of syntax is written whole if what stands in it is. -/
theorem Form.written_toJson {α : Type} {write : α → Json} (form : Form α)
    (h : ∀ a ∈ form.children, (write a).Written)
    (hnumber : ∀ x, form = .number x → x.isFinite = true) :
    (form.map write).toJson.Written := by
  cases form with
  | number x => simpa [Form.map, Form.toJson, variant] using written_ofFloat (hnumber x rfl)
  | loop kind => cases kind <;> simp_all [Form.map, Form.toJson, variant, children]
  | definitions kind bs hoisted =>
    have hbs : ∀ b ∈ bs, ∀ a ∈ b.value, (write a).Written :=
      fun b hb a ha => h a (List.mem_filterMap.2 ⟨b, hb, ha⟩)
    simpa [Form.map, Form.toJson, variant, Binding.toJson, Binding.map] using hbs
  | _ => simp_all [Form.map, Form.toJson, variant, children, Lambda.toJson, Label.toJson,
      Property.toJson, Property.map]

namespace Node

/-- The numbers in a tree. -/
def numbers (n : Node) : List Float :=
  (n.visited fun _ => true).filterMap fun m =>
    match m.form with
    | .number x => some x
    | _ => none

theorem mem_numbers {n : Node} {x : Float} :
    x ∈ n.numbers ↔ n.form = .number x ∨ ∃ c ∈ n.children, x ∈ c.numbers := by
  obtain ⟨form, span⟩ := n
  rw [numbers, visited_eq, if_pos rfl, List.filterMap_cons]
  have hchildren : x ∈ ((⟨form, span⟩ : Node).children.flatMap (visited fun _ => true)).filterMap
      (fun m => match m.form with
        | .number x => some x
        | _ => none) ↔ ∃ c ∈ (⟨form, span⟩ : Node).children, x ∈ c.numbers := by
    rw [List.filterMap_flatMap, List.mem_flatMap]
    rfl
  cases form with
  | number y => simp [hchildren, eq_comm]
  | _ => simp [hchildren]

theorem written_toJson (n : Node) (h : ∀ x ∈ n.numbers, x.isFinite = true) : n.toJson.Written := by
  induction n using Node.induct with
  | h n ih =>
    have hform : (n.form.map toJson).toJson.Written := by
      refine Form.written_toJson n.form (fun c hc => ih c hc fun x hx => ?_) fun x hx => ?_
      · exact h x (mem_numbers.2 (.inr ⟨c, hc, hx⟩))
      · exact h x (mem_numbers.2 (.inl hx))
    rw [toJson_eq, Json.written_record]
    simp [hform]

theorem ofJson?_toJson (n : Node) (hcodec : ∀ x ∈ n.numbers, float? (.ofFloat x) = some x) {d : Nat}
    (hdepth : n.toJson.depth ≤ d) : ofJson? d n.toJson = some n := by
  induction n using Node.induct generalizing d with
  | h n ih =>
    obtain ⟨form, span⟩ := n
    rw [toJson_eq] at hdepth ⊢
    obtain ⟨e, rfl, hf⟩ := exists_depth_record hdepth
    simp only [List.forall_mem_cons] at hf
    have hform : Form.ofJson? (fun d v => if d < e + 1 then ofJson? d v else none) e
        (form.map toJson).toJson = some form := by
      refine Form.ofJson?_toJson form (Nat.lt_succ_self e) (fun c hc => ⟨?_, ?_⟩) (fun x hx => ?_)
        hf.1
      · rw [toJson_eq]
        exact fun h => nomatch h
      · intro d hd hdepth
        change (if d < e + 1 then ofJson? d c.toJson else none) = some c
        rw [if_pos hd]
        exact ih c hc (fun x hx => hcodec x (mem_numbers.2 (.inr ⟨c, hc, hx⟩))) hdepth
      · exact hcodec x (mem_numbers.2 (.inl hx))
    have hspan := Span.ofJson?_toJson span hf.2.1
    rw [ofJson?, fields?_record rfl (by decide)]
    change (Form.ofJson? _ e (form.map toJson).toJson).bind
      (fun form => (Span.ofJson? e span.toJson).bind fun span => some (Node.mk form span)) =
        some (Node.mk form span)
    rw [hform, hspan]
    rfl

/-- A tree whose numbers are finite and whose text is not too deep reads back from its text, if the
text of each of its numbers does. -/
theorem ofFileText?_fileText (n : Node) (hfinite : ∀ x ∈ n.numbers, x.isFinite = true)
    (hcodec : ∀ x ∈ n.numbers, x.isFinite = true → float? (.ofFloat x) = some x)
    (hdepth : n.toJson.depth ≤ maxDepth) : ofFileText? n.fileText = some n := by
  have hparse : Json.parse? n.fileText.toList = some n.toJson := by
    rw [fileText, String.toList_ofList]
    exact Json.parse?_render (written_toJson n hfinite)
  rw [ofFileText?, hparse]
  exact ofJson?_toJson n (fun x hx => hcodec x hx (hfinite x hx)) hdepth

/-- `0.5%-0` reads back with the sign of its zero. -/
theorem ofFileText?_fileText_zero :
    let n := Build.binary .mod (Build.number 0.5) (Build.number (-0.0))
    (∀ x ∈ n.numbers, x.isFinite = true ∧ float? (.ofFloat x) = some x) ∧
      ofFileText? n.fileText = some n := by
  intro n
  have hnumbers : n.numbers = [0.5, -0.0] := by
    have hvisited : n.visited (fun _ => true) = [n, Build.number 0.5, Build.number (-0.0)] := by
      simp [n, visited_eq, children, Form.children, Build.binary, Build.number, Form.node]
    rw [numbers, hvisited]
    rfl
  have hcodec : ∀ x ∈ n.numbers, x.isFinite = true ∧ float? (.ofFloat x) = some x := by
    rw [hnumbers]
    simp only [List.forall_mem_cons]
    exact ⟨⟨rfl, rfl⟩, ⟨rfl, rfl⟩, fun x hx => nomatch hx⟩
  have hdepth : n.toJson.depth ≤ maxDepth := by
    simp only [n, toJson_eq]
    decide +kernel
  exact ⟨hcodec, ofFileText?_fileText n (fun x hx => (hcodec x hx).1)
    (fun x hx _ => (hcodec x hx).2) hdepth⟩

end Node

end ScriptMinifier
