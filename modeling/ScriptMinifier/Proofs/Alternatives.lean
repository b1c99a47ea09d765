import ScriptMinifier.Proofs.Fits
import ScriptMinifier.Proofs.Outlines

namespace ScriptMinifier

open Script (Lexes Nests Outline Run)

/-- Whether the text of a form may stand in a place. Whether a value can be assigned to does not
show in how statements nest. -/
def Category.holds {α : Type} : Category → Form α → Bool
  | statement, form => form.isStatement && !form.isClause
  | clause, .case .. | handler, .catch_ .. | finalizer, .finally_ _ => true
  | head, .definitions .. | cursor, .definitions .. => true
  | clause, _ | handler, _ | finalizer, _ => false
  | _, form => !form.isStatement

/-- Statements stand where statements are asked for and expressions where expressions are, and names
are names. -/
inductive Node.Printable : Category → Node → Prop
  | mk {k : Category} {form : Form Node} {span : Span} : k.holds form = true → form.Spelled →
    (∀ j a, (j, a) ∈ form.parts → Printable j a) → Printable k ⟨form, span⟩

/-- The text of what stands in a place is read as the place asks. -/
def Category.Reads : Category → Node → Prop
  | statement, n => n.Nested
  | clause, n => Node.AreNested .clauses [n]
  | handler, n | finalizer, n => Node.AreNested .handlers [n]
  | head, n | cursor, n => n.IsHead
  | _, n => n.IsFragment ∧ n.IsOpened

namespace Node

variable {form : Form Node} {span : Span} {k : Category} {n : Node} {body : List Node}

theorem fragment_layer (hform : form.isStatement = false) (hspelled : form.Spelled)
    (h : ∀ j a, (j, a) ∈ form.parts → j.Reads a) :
    (⟨form, span⟩ : Node).IsFragment ∧ (⟨form, span⟩ : Node).IsOpened := by
  by_cases hscope : form.opensScope = true
  · cases form with
    | function l =>
      have hbody : AreNested .statements l.body :=
        .of_nested fun n hn => h .statement n (by simpa [Form.parts] using hn)
      refine ⟨.function hspelled hbody.isEnclosable, ?_⟩
      rintro _ ⟨⟩
      exact ⟨hspelled, hbody.isEnclosable⟩
    | declaration | program => cases hform
    | _ => cases hscope
  · have hscope : form.opensScope = false := eq_false_of_ne_true hscope
    refine ⟨isFragment_layer hform hscope hspelled fun c hc => ?_, ?_⟩
    · obtain ⟨j, hj⟩ := Form.exists_part hc
      have hread := h j c hj
      obtain rfl | rfl | rfl := Form.expression_of_mem_parts hform hscope hj <;> exact hread
    · rintro l rfl
      cases hscope

theorem readable_bindings {kind : DeclarationKind} {bs : List (Binding Node)} {hoisted : Bool}
    (hspelled : (Form.definitions kind bs hoisted).Spelled)
    (h : ∀ j a, (j, a) ∈ (Form.definitions kind bs hoisted).parts → j.Reads a) :
    ∀ b ∈ bs, Text.isIdentifier b.name = true ∧ ∀ v ∈ b.value, v.IsFragment := by
  refine fun b hb => ⟨hspelled b hb, fun v hv => (h .expression v ?_).1⟩
  simp only [Form.parts, List.mem_map, List.mem_filterMap]
  exact ⟨v, ⟨b, hb, hv⟩, rfl⟩

theorem nested_layer (hform : form.isStatement = true) (hclause : form.isClause = false)
    (hspelled : form.Spelled) (h : ∀ j a, (j, a) ∈ form.parts → j.Reads a) :
    (⟨form, span⟩ : Node).Nested := by
  have hall {body : List Node} (hbody : ∀ n ∈ body, (Category.statement, n) ∈ form.parts) :
      AreNested .statements body :=
    .of_nested fun n hn => h _ n (hbody n hn)
  cases form with
  | expression e => exact .expression (h .expression e (by simp [Form.parts])).1
  | block body => exact .block (hall (by simp [Form.parts]))
  | empty => exact .empty
  | debugger => exact .debugger
  | labeled l body => exact .labeled hspelled (h .statement body (by simp [Form.parts]))
  | exit kind value =>
    exact .exit fun e he => (h .expression e (by simpa [Form.parts] using he)).1
  | jump kind label =>
    refine .jump fun l hl => ?_
    obtain rfl := hl
    exact hspelled
  | branch c body alternative =>
    have hc := (h .condition c (by simp [Form.parts])).1
    have hbody : body.Nested := h .statement body (by simp [Form.parts])
    cases alternative with
    | none => exact .branch hc hbody
    | some a => exact .branchElse hc hbody (h .statement a (by simp [Form.parts]))
  | loop kind c body =>
    have hc := (h .condition c (by simp [Form.parts])).1
    have hbody : body.Nested := h .statement body (by simp [Form.parts])
    cases kind with
    | whileDo => exact .whileDo hc hbody
    | doWhile => exact .doWhile hc hbody
  | forLoop init c step body =>
    exact .forLoop (fun n hn => h .head n (by simp_all [Form.parts]))
      (fun n hn => (h .condition n (by simp_all [Form.parts])).1)
      (fun n hn => (h .expression n (by simp_all [Form.parts])).1)
      (h .statement body (by simp [Form.parts]))
  | forIn init e body =>
    exact .forIn (h .cursor init (by simp [Form.parts])) (h .expression e (by simp [Form.parts])).1
      (h .statement body (by simp [Form.parts]))
  | switch e cases =>
    exact .switch (h .expression e (by simp [Form.parts])).1
      (.of_forall fun n hn => h .clause n (by simp_all [Form.parts]))
  | try_ body handler finalizer =>
    refine .try_ (hall (by simp +contextual [Form.parts])) (.append ?_ ?_)
    · exact .of_forall fun n hn => h .handler n (by simp_all [Form.parts])
    · exact .of_forall fun n hn => h .finalizer n (by simp_all [Form.parts])
  | with_ e body =>
    exact .with_ (h .expression e (by simp [Form.parts])).1
      (h .statement body (by simp [Form.parts]))
  | definitions kind bs hoisted =>
    exact .definitions (readable_bindings hspelled h)
  | declaration l => exact .declaration hspelled.1 hspelled.2 (hall (by simp [Form.parts]))
  | case | catch_ | finally_ | program => cases hclause
  | _ => cases hform

theorem head_layer (hform : form.isStatement = false ∨ ∃ kind bs b, form = .definitions kind bs b)
    (hspelled : form.Spelled) (h : ∀ j a, (j, a) ∈ form.parts → j.Reads a) :
    (⟨form, span⟩ : Node).IsHead := by
  obtain hform | ⟨kind, bs, hoisted, rfl⟩ := hform
  · exact (fragment_layer hform hspelled h).1.isHead hform
  · exact isHead_definitions (readable_bindings hspelled h)

theorem clause_layer {test : Option Node}
    (h : ∀ j a, (j, a) ∈ (Form.case test body).parts → j.Reads a) :
    AreNested .clauses [⟨.case test body, span⟩] := by
  have hbody : AreNested .statements body :=
    .of_nested fun n hn => h .statement n (by simp [Form.parts, hn])
  cases test with
  | none => exact .default hbody
  | some test => exact .case (h .expression test (by simp [Form.parts])).1 hbody

theorem Printable.reads (h : n.Printable k) : k.Reads n := by
  induction h with
  | @mk k form span hk hspelled _ ih =>
    have hall {body : List Node} (hbody : ∀ n ∈ body, (Category.statement, n) ∈ form.parts) :
        AreNested .statements body :=
      .of_nested fun n hn => ih _ n (hbody n hn)
    cases k with
    | statement =>
      obtain ⟨hform, hclause⟩ : form.isStatement = true ∧ form.isClause = false := by
        simpa [Category.holds] using hk
      exact nested_layer hform hclause hspelled ih
    | clause =>
      cases form with
      | case test body => exact clause_layer ih
      | _ => cases hk
    | handler =>
      cases form with
      | catch_ param body => exact .catch_ hspelled (hall (by simp [Form.parts]))
      | _ => cases hk
    | finalizer =>
      cases form with
      | finally_ body => exact .finally_ (hall (by simp [Form.parts]))
      | _ => cases hk
    | head | cursor =>
      refine head_layer ?_ hspelled ih
      cases form with
      | definitions kind bs hoisted => exact .inr ⟨kind, bs, hoisted, rfl⟩
      | _ => exact .inl (by simpa [Category.holds] using hk)
    | _ => exact fragment_layer (by simpa [Category.holds] using hk) hspelled ih

/-- The statements that a tree stands for. -/
def listed : Node → List Node
  | ⟨.program body, _⟩ => body
  | n => [n]

theorem text_eq_statements (h : ∀ m ∈ n.listed, m.Printable .statement) :
    n.text = statements n.listed := by
  obtain ⟨form, span⟩ := n
  have hsingle (h : (⟨form, span⟩ : Node).Printable .statement) :
      (⟨form, span⟩ : Node).text = statements [⟨form, span⟩] := by
    cases h with
    | mk hk _ _ =>
      have hform : form.isStatement = true := (Bool.and_eq_true_iff.1 hk).1
      rw [statements, statements, List.append_nil, asStatement, isStatement, form_mk, if_pos hform]
  cases form with
  | program body => rfl
  | _ => exact hsingle (h _ List.mem_cons_self)

/-- The text of a tree of statements is one of tokens, and the only way to read them, an `else`
belonging to the nearest `if` that can still take one, is as the statements nest. -/
theorem print_nests_back (h : ∀ m ∈ n.listed, m.Printable .statement) :
    ∃ ts, Script.scan n.print.toList = some ts ∧
      ∀ os rest, Nests .statements ts os rest ↔ os = n.listed.map outline ∧ rest = [] := by
  have hnested : AreNested .statements n.listed := AreNested.of_nested fun m hm => (h m hm).reads
  obtain ⟨ts, hts, hread⟩ := hnested.closed
  have hnests := hread [] nofun
  rw [List.append_nil, outlines_eq] at hnests
  refine ⟨ts, ?_, fun os rest => ⟨fun hos => hos.unique hnests, ?_⟩⟩
  · rw [print, String.toList_ofList, text_eq_statements h]
    exact hts.scan_eq
  · rintro ⟨rfl, rfl⟩
    exact hnests

/-- Braces keep the `else` from the `if` that the loop ends in. -/
theorem print_guarded_nests_back :
    let f := Build.callStatement "f" []
    let g := Build.callStatement "g" []
    let n := Build.branch (Build.identifier "a")
      (Build.whileDo (Build.identifier "b") (Build.branch (Build.identifier "c") f none)) (some g)
    (∀ m ∈ n.listed, m.Printable .statement) ∧
      n.print = "if(a)\x7bwhile(b)if(c)f();\x7delse g();" ∧
      ∃ ts, Script.scan n.print.toList = some ts ∧
        ∀ os rest, Nests .statements ts os rest ↔
          os = [.branch (Script.tokens ['a'])
            (.under "while" ['b'] (.branch (Script.tokens ['c']) f.outline none))
            (some g.outline)] ∧ rest = [] := by
  intro f g n
  have hname {k : Category} (name : String) (h : Text.isIdentifier name = true)
      (hk : k.holds (Build.identifier name).form = true) : (Build.identifier name).Printable k :=
    .mk hk h fun _ _ ha => by cases ha
  have hcall (name : String) (h : Text.isIdentifier name = true) :
      (Build.callStatement name []).Printable .statement := by
    have hvalue : (Build.call name []).Printable .expression :=
      .mk rfl trivial (by simpa [Form.parts] using hname name h rfl)
    exact .mk rfl trivial (by simpa [Form.parts] using hvalue)
  have hbranch {c body : Node} {alternative : Option Node} (hc : c.Printable .condition)
      (hbody : body.Printable .statement) (ha : ∀ a ∈ alternative, a.Printable .statement) :
      (Build.branch c body alternative).Printable .statement := by
    refine .mk rfl trivial fun j m hm => ?_
    simp only [Form.parts, List.mem_cons, Prod.mk.injEq, List.mem_map, Option.mem_toList] at hm
    obtain ⟨rfl, rfl⟩ | ⟨rfl, rfl⟩ | ⟨a, ha', rfl, rfl⟩ := hm
    · exact hc
    · exact hbody
    · exact ha _ ha'
  have hinner : (Build.branch (Build.identifier "c") f none).Printable .statement :=
    hbranch (hname "c" (by decide) rfl) (hcall "f" (by decide)) (by simp)
  have hloop : (Build.whileDo (Build.identifier "b")
      (Build.branch (Build.identifier "c") f none)).Printable .statement :=
    .mk rfl trivial fun j m hm => by
      obtain ⟨rfl, rfl⟩ | ⟨rfl, rfl⟩ : j = .condition ∧ m = Build.identifier "b" ∨
          j = .statement ∧ m = Build.branch (Build.identifier "c") f none := by
        simpa [Form.parts] using hm
      · exact hname "b" (by decide) rfl
      · exact hinner
  have hn : ∀ m ∈ n.listed, m.Printable .statement :=
    List.forall_mem_singleton.2 (hbranch (hname "a" (by decide) rfl) hloop
      fun a ha => Option.some.inj ha ▸ hcall "g" (by decide))
  exact ⟨hn, by decide +kernel, print_nests_back hn⟩

end Node

end ScriptMinifier
