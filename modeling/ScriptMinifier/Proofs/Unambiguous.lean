import ScriptMinifier.Proofs.Grammar

namespace ScriptMinifier.Script

/-- A list of expressions that is being read. -/
inductive Items where
  | array
  | call (callee : Node)
  | construct (callee : Node)

namespace Items

def closing : Items → Token
  | array => .mark "]"
  | call _ | construct _ => .mark ")"

def node : Items → List Node → Node
  | array, es => (Form.array es).node
  | call e, es => (Form.call e es).node
  | construct e, es => (Form.construct e es).node

end Items

/-- What waits for an expression to follow. -/
inductive Frame where
  | sequence (first : Node)
  | assign (op : AssignOperator) (target : Node)
  /-- After the `?` of a choice. -/
  | consequent (condition : Node)
  /-- After the `:` of a choice. -/
  | alternative (condition consequent : Node)
  | binary (rung : Nat) (op : BinaryOperator) (left : Node)
  | unary (op : UnaryOperator)
  /-- After a `new` whose arguments, if it has any, are still to come. -/
  | construct
  | parenthesis
  | index (subject : Node)
  /-- A list with the items read so far, the last one first. -/
  | items (list : Items) (seen : List Node)

namespace Frame

/-- How tightly a frame holds the expression that it waits for: an operator after it that is no
stronger ends the frame. What a comma, a colon or a bracket after it ends is weaker than these; and a
frame in which a comma makes a sequence is the weakest. -/
def strength : Frame → Nat
  | parenthesis | index _ => 0
  | items .. | consequent _ => 1
  | sequence _ | assign .. | alternative .. => 2
  | binary k .. => 4 + k
  | unary _ => 14
  | construct => 16

/-- The tree of a frame that ends with its expression. -/
def fill : Frame → Node → Node
  | sequence a, e => Build.sequence a e
  | assign op target, e => (Form.assign op target e).node
  | alternative c a, e => Build.conditional c a e
  | binary _ op l, e => Build.binary op l e
  | unary op, e => Build.unary op e
  | construct, e => (Form.construct e []).node
  | _, e => e

end Frame

/-- Ends the frames that an operator of strength `q` ends. -/
def close (q : Nat) (e : Node) : List Frame → Node × List Frame
  | [] => (e, [])
  | f :: stack => if q ≤ f.strength then close q (f.fill e) stack else (e, f :: stack)

inductive State where
  /-- An operand is to come. -/
  | operand (stack : List Frame)
  /-- An operand has been read; an operator or a closing bracket is to come. -/
  | operator (e : Node) (stack : List Frame)
  /-- The name of a property is to come. -/
  | name (subject : Node) (stack : List Frame)

/-- The rung of a binary operator, looked for from rung `k` on. -/
def rungOf (t : Token) : Nat → List (List (Token × BinaryOperator)) → Option (Nat × BinaryOperator)
  | _, [] => none
  | k, ops :: rest =>
    match ops.lookup t with
    | some op => some (k, op)
    | none => rungOf t (k + 1) rest

/-- What may follow an operand, with its effect once the frames that it ends are ended. -/
inductive Follower where
  | dot | bracket | parenthesis | choice
  | update (op : UnaryOperator)
  | assign (op : AssignOperator)
  | binary (rung : Nat) (op : BinaryOperator)
  /-- Commas, colons and closing brackets. -/
  | other
deriving DecidableEq

namespace Follower

def of (t : Token) : Follower :=
  if t = .mark "." then dot
  else if t = .mark "[" then bracket
  else if t = .mark "(" then parenthesis
  else if t = .mark "?" then choice
  else match suffixOperators.lookup t, assignOperators.lookup t, rungOf t 0 rungs with
    | some op, _, _ => update op
    | none, some op, _ => assign op
    | none, none, some (k, op) => binary k op
    | none, none, none => other

def strength : Follower → Nat
  | dot | bracket | parenthesis => 17
  | update _ | assign _ => 16
  | binary k _ => 4 + k
  | choice => 4
  | other => 2

end Follower

namespace State

/-- A token where an operand is to come. -/
def begin (stack : List Frame) (t : Token) : Option State :=
  match constants.lookup t, prefixOperators.lookup t with
  | some e, _ => some (operator e stack)
  | none, some op => some (operand (.unary op :: stack))
  | none, none =>
    match t with
    | .number x => some (operator (Build.number x) stack)
    | .string s => some (operator (Build.string s) stack)
    | .word w =>
      if w = "new" then some (operand (.construct :: stack))
      else some (operator (Build.identifier w) stack)
    | .mark m =>
      if m = "(" then some (operand (.parenthesis :: stack))
      else if m = "[" then some (operand (.items .array [] :: stack))
      else match stack with
        -- a list without items, or a comma after the last one
        | .items list seen :: stack =>
          if t = list.closing then some (operator (list.node seen.reverse) stack) else none
        | _ => none

/-- A comma, a colon or a closing bracket after the last expression in its brackets. -/
def finish (e : Node) (stack : List Frame) (t : Token) : Option State :=
  match stack with
  | .items list seen :: stack =>
    if t = .mark "," then some (operand (.items list (e :: seen) :: stack))
    else if t = list.closing then some (operator (list.node (e :: seen).reverse) stack)
    else none
  | .consequent c :: stack =>
    if t = .mark ":" then some (operand (.alternative c e :: stack)) else none
  | stack =>
    if t = .mark "," then some (operand (.sequence e :: stack))
    else match stack with
      | .parenthesis :: stack => if t = .mark ")" then some (operator e stack) else none
      | .index subject :: stack =>
        if t = .mark "]" then some (operator (Build.index subject e) stack) else none
      | _ => none

/-- A parenthesis after an operand opens its arguments, or those of the `new` before it. -/
def arguments (e : Node) : List Frame → State
  | .construct :: stack => operand (.items (.construct e) [] :: stack)
  | stack => operand (.items (.call e) [] :: stack)

/-- A token after an operand, which has ended the frames that it ends. -/
def extend (e : Node) (stack : List Frame) (t : Token) : Option State :=
  match Follower.of t with
  | .dot => some (name e stack)
  | .bracket => some (operand (.index e :: stack))
  | .parenthesis => some (arguments e stack)
  | .choice => some (operand (.consequent e :: stack))
  | .update op => some (operator (Form.update op e).node stack)
  | .assign op => some (operand (.assign op e :: stack))
  | .binary k op => some (operand (.binary k op e :: stack))
  | .other => finish e stack t

def step : State → Token → Option State
  | operand stack, t => begin stack t
  | operator e stack, t =>
    let (e, stack) := close (Follower.of t).strength e stack
    extend e stack t
  | name e stack, t =>
    match t with
    | .word property => some (operator (Build.member e property) stack)
    | _ => none

def run (s : State) (ts : List Token) : Option State := ts.foldlM step s

@[simp] theorem run_nil (s : State) : s.run [] = some s := rfl

theorem run_cons (s : State) (t : Token) (ts : List Token) :
    s.run (t :: ts) = (s.step t).bind (run · ts) :=
  List.foldlM_cons

theorem run_append (s : State) (ts us : List Token) :
    s.run (ts ++ us) = (s.run ts).bind (run · us) :=
  List.foldlM_append

end State

/-- The tree of a whole list of tokens. -/
def read (ts : List Token) : Option Node :=
  match (State.operand []).run ts with
  | some (.operator e stack) => some (close 2 e stack).1
  | _ => none

namespace Symbol

/-- What derives from a symbol is read where the frame before it is weaker than this. -/
def room : Symbol → Nat
  | expression => 1
  | assignment | conditional => 3
  | operation k => 4 + k
  | unary => 15
  | update | leftHandSide | call => 16
  | construction | member | primary => 17

/-- An operator up to this strength ends what derives from a symbol. -/
def reach : Symbol → Nat
  | expression | assignment | conditional => 2
  | operation k => 4 + k
  | unary => 14
  | update | leftHandSide | construction => 16
  | call | member | primary => 17

theorem le_rung {k : Nat} (h : k ≤ rungs.length) :
    4 + k ≤ (rung k).room ∧ 4 + k ≤ (rung k).reach := by
  unfold rung
  split
  · exact ⟨Nat.le_refl _, Nat.le_refl _⟩
  · have hlength : rungs.length = 10 := rfl
    simp only [room, reach]
    omega

theorem le_of_mem_units {s t : Symbol} (h : t ∈ s.units) : s.room ≤ t.room ∧ s.reach ≤ t.reach := by
  cases s with
  | conditional =>
    obtain rfl := List.mem_singleton.1 h
    exact ⟨by decide, by decide⟩
  | operation k =>
    obtain rfl := List.mem_singleton.1 h
    have hnext : 4 + (k : Nat) ≤ 4 + (k + 1) := Nat.le_succ _
    obtain ⟨hroom, hreach⟩ := le_rung (k := k + 1) k.isLt
    exact ⟨Nat.le_trans hnext hroom, Nat.le_trans hnext hreach⟩
  | leftHandSide =>
    obtain rfl | rfl : t = construction ∨ t = call := by simpa [units] using h
    · decide
    · decide
  | call | primary => cases h
  | _ =>
    obtain rfl := List.mem_singleton.1 h
    decide

theorem IsChain.room {s : Symbol} (h : s.IsChain) : 16 ≤ s.room ∧ s.room ≤ 17 := by
  obtain rfl | rfl := h <;> decide

theorem IsChain.reach {s : Symbol} (h : s.IsChain) : s.reach = 17 := by
  obtain rfl | rfl := h <;> rfl

end Symbol

/-- The last frame is weaker than `q`. -/
def Below (q : Nat) (stack : List Frame) : Prop := ∀ f ∈ stack.head?, f.strength < q

variable {s s' : Symbol} {ts us : List Token} {t : Token} {e : Node} {stack : List Frame} {f : Frame}
  {q r : Nat}

theorem Below.mono (h : Below q stack) (hr : q ≤ r) : Below r stack :=
  fun f hf => Nat.lt_of_lt_of_le (h f hf) hr

theorem below_cons (h : f.strength < q) : Below q (f :: stack) := by
  intro g hg
  obtain rfl : f = g := Option.some.inj hg
  exact h

theorem close_of_below (h : Below q stack) : close q e stack = (e, stack) := by
  cases stack with
  | nil => rfl
  | cons f stack =>
    have hf : f.strength < q := h f rfl
    exact if_neg (Nat.not_le.2 hf)

theorem close_of_le (h : q ≤ f.strength) : close q e (f :: stack) = close q (f.fill e) stack :=
  if_pos h

theorem follower_of_rung {k : Fin rungs.length} {op : BinaryOperator} (h : (t, op) ∈ rungs.get k) :
    Follower.of t = .binary k op := by
  have hall : ∀ k : Fin rungs.length, ∀ p ∈ rungs.get k, Follower.of p.1 = .binary k p.2 := by
    decide
  exact hall k _ h

theorem follower_of_assign {op : AssignOperator} (h : (t, op) ∈ assignOperators) :
    Follower.of t = .assign op := by
  have hall : ∀ p ∈ assignOperators, Follower.of p.1 = .assign p.2 := by decide
  exact hall _ h

theorem follower_of_suffix {op : UnaryOperator} (h : (t, op) ∈ suffixOperators) :
    Follower.of t = .update op := by
  have hall : ∀ p ∈ suffixOperators, Follower.of p.1 = .update p.2 := by decide
  exact hall _ h

theorem follower_closing (list : Items) : Follower.of list.closing = .other := by
  cases list <;> rfl

theorem begin_closing (list : Items) (seen : List Node) (stack : List Frame) :
    State.begin (.items list seen :: stack) list.closing =
      some (.operator (list.node seen.reverse) stack) := by
  cases list <;> rfl

theorem extend_closing (list : Items) (seen : List Node) (stack : List Frame) (e : Node) :
    State.extend e (.items list seen :: stack) list.closing =
      some (.operator (list.node (e :: seen).reverse) stack) := by
  cases list <;> rfl

/-- The tokens are read as the tree, up to frames that are still to be ended. -/
def Reads (s : Symbol) (ts : List Token) (e : Node) : Prop :=
  ∀ stack, Below s.room stack →
    ∃ e' stack', (State.operand stack).run ts = some (.operator e' stack') ∧
      ∀ q ≤ s.reach, close q e' stack' = close q e stack

theorem reads_of_run (h : ∀ stack, Below s.room stack →
    (State.operand stack).run ts = some (.operator e stack)) : Reads s ts e :=
  fun stack hstack => ⟨e, stack, h stack hstack, fun _ _ => rfl⟩

theorem reads_token (h : ∀ stack, State.begin stack t = some (.operator e stack)) :
    Reads s [t] e := by
  refine reads_of_run fun stack _ => ?_
  rw [State.run_cons, State.step, h]
  rfl

namespace Reads

/-- A token after what has been read ends all that was read, and nothing before. -/
theorem follow (h : Reads s ts e) (hroom : Below s.room stack)
    (hreach : (Follower.of t).strength ≤ s.reach) (hstack : Below (Follower.of t).strength stack)
    (us : List Token) :
    (State.operand stack).run (ts ++ t :: us) = (State.extend e stack t).bind (State.run · us) := by
  obtain ⟨e', stack', hrun, hclose⟩ := h stack hroom
  have hstep : (State.operator e' stack').step t = State.extend e stack t := by
    rw [State.step, hclose _ hreach, close_of_below hstack]
  rw [State.run_append, hrun, Option.bind_some, State.run_cons, hstep]

theorem unit (h : Reads s' ts e) (hs : s' ∈ s.units) : Reads s ts e := by
  intro stack hstack
  obtain ⟨hroom, hreach⟩ := Symbol.le_of_mem_units hs
  obtain ⟨e', stack', hrun, hclose⟩ := h stack (hstack.mono hroom)
  exact ⟨e', stack', hrun, fun q hq => hclose q (Nat.le_trans hq hreach)⟩

/-- What follows on a frame completes it. -/
theorem fill (h : Reads s' ts e) (hroom : f.strength < s'.room) (hreach : s.reach ≤ s'.reach)
    (hf : s.reach ≤ f.strength) (stack : List Frame) :
    ∃ e' stack', (State.operand (f :: stack)).run ts = some (.operator e' stack') ∧
      ∀ q ≤ s.reach, close q e' stack' = close q (f.fill e) stack := by
  obtain ⟨e', stack', hrun, hclose⟩ := h (f :: stack) (below_cons hroom)
  refine ⟨e', stack', hrun, fun q hq => ?_⟩
  rw [hclose q (Nat.le_trans hq hreach), close_of_le (Nat.le_trans hq hf)]

/-- A token that opens a frame, and what completes it. -/
theorem opened (h : Reads s' ts e)
    (ht : ∀ stack, State.begin stack t = some (.operand (f :: stack))) (hroom : f.strength < s'.room)
    (hreach : s.reach ≤ s'.reach) (hf : s.reach ≤ f.strength) : Reads s (t :: ts) (f.fill e) := by
  intro stack _
  rw [State.run_cons, State.step, ht]
  exact h.fill hroom hreach hf stack

/-- An operand, an operator that opens a frame, and what completes it. -/
theorem operator {s₁ s₂ : Symbol} {a : Node} (ha : Reads s₁ ts a) (hb : Reads s₂ us e)
    (ht : ∀ stack, Below s.room stack → State.extend a stack t = some (.operand (f :: stack)))
    (hroom₁ : s.room ≤ s₁.room) (hreach₁ : (Follower.of t).strength ≤ s₁.reach)
    (hroom : s.room ≤ (Follower.of t).strength) (hroom₂ : f.strength < s₂.room)
    (hreach₂ : s.reach ≤ s₂.reach) (hf : s.reach ≤ f.strength) :
    Reads s (ts ++ t :: us) (f.fill e) := by
  intro stack hstack
  rw [ha.follow (hstack.mono hroom₁) hreach₁ (hstack.mono hroom), ht stack hstack]
  exact hb.fill hroom₂ hreach₂ hf stack

end Reads

theorem separated_concat (tss : List (List Token)) (ts : List Token) :
    separated (tss ++ [ts]) = tss.flatMap (· ++ [.mark ","]) ++ ts := by
  induction tss with
  | nil => rfl
  | cons us tss ih =>
    have hne : tss ++ [ts] ≠ [] := by simp
    obtain ⟨vs, vss, hvs⟩ := List.exists_cons_of_ne_nil hne
    rw [List.cons_append, hvs, separated, ← hvs, ih]
    · simp
    · simp

variable {items : List (List Token × Node)}

/-- An item is read up to the token after it. -/
theorem Reads.item (h : Reads .assignment ts e) (ht : Follower.of t = .other) (list : Items)
    (seen : List Node) (stack : List Frame) (us : List Token) :
    (State.operand (.items list seen :: stack)).run (ts ++ t :: us) =
      (State.extend e (.items list seen :: stack) t).bind (State.run · us) := by
  have hstack (q : Nat) (hq : 1 < q) : Below q (.items list seen :: stack) := below_cons hq
  have hstrength : (Follower.of t).strength = 2 := by
    rw [ht]
    rfl
  refine h.follow (hstack _ (by decide)) ?_ ?_ us
  · rw [hstrength]
    decide
  · rw [hstrength]
    exact hstack 2 (by decide)

/-- Items that each end in a comma are gathered. -/
theorem run_commas (h : ∀ i ∈ items, Reads .assignment i.1 i.2) (list : Items) (seen : List Node)
    (stack : List Frame) (us : List Token) :
    (State.operand (.items list seen :: stack)).run
        ((items.map Prod.fst).flatMap (· ++ [.mark ","]) ++ us) =
      (State.operand (.items list ((items.map Prod.snd).reverse ++ seen) :: stack)).run us := by
  induction items generalizing seen with
  | nil => rfl
  | cons i items ih =>
    obtain ⟨hi, hitems⟩ := List.forall_mem_cons.1 h
    rw [List.map_cons, List.flatMap_cons, List.append_assoc, List.append_assoc,
      List.singleton_append, hi.item (by decide)]
    refine (ih hitems (i.2 :: seen)).trans ?_
    simp

/-- A list is read up to the bracket that closes it. -/
theorem run_closing (h : ∀ i ∈ items, Reads .assignment i.1 i.2) (list : Items)
    (stack : List Frame) :
    (State.operand (.items list [] :: stack)).run
        (separated (items.map Prod.fst) ++ [list.closing]) =
      some (.operator (list.node (items.map Prod.snd)) stack) := by
  obtain rfl | ⟨front, last, rfl⟩ := items.eq_nil_or_concat
  · rw [List.map_nil, separated, List.nil_append, State.run_cons, State.step, begin_closing]
    rfl
  · have hlast := h last (by simp)
    have hfront : ∀ i ∈ front, Reads .assignment i.1 i.2 := fun i hi => h i (by simp [hi])
    rw [List.concat_eq_append, List.map_append, List.map_singleton, separated_concat,
      List.append_assoc, run_commas hfront, hlast.item (follower_closing list), extend_closing]
    simp

/-- So it is if a comma follows the last item. -/
theorem run_comma_closing (h : ∀ i ∈ items, Reads .assignment i.1 i.2) (hne : items ≠ [])
    (list : Items) (stack : List Frame) :
    (State.operand (.items list [] :: stack)).run
        (separated (items.map Prod.fst) ++ [.mark ","] ++ [list.closing]) =
      some (.operator (list.node (items.map Prod.snd)) stack) := by
  have hcommas : separated (items.map Prod.fst) ++ [.mark ","] =
      (items.map Prod.fst).flatMap (· ++ [.mark ","]) := by
    obtain rfl | ⟨front, last, rfl⟩ := items.eq_nil_or_concat
    · exact absurd rfl hne
    · rw [List.concat_eq_append, List.map_append, List.map_singleton, separated_concat]
      simp
  rw [hcommas, run_commas h, State.run_cons, State.step, begin_closing]
  simp

theorem begin_constant (h : (t, e) ∈ constants) (stack : List Frame) :
    State.begin stack t = some (.operator e stack) := by
  simp only [constants, List.mem_cons, Prod.mk.injEq, List.not_mem_nil, or_false] at h
  obtain ⟨rfl, rfl⟩ | ⟨rfl, rfl⟩ | ⟨rfl, rfl⟩ | ⟨rfl, rfl⟩ := h <;> rfl

theorem begin_operator {op : UnaryOperator} (h : (t, op) ∈ prefixOperators) (stack : List Frame) :
    State.begin stack t = some (.operand (.unary op :: stack)) := by
  simp only [prefixOperators, List.mem_cons, Prod.mk.injEq, List.not_mem_nil, or_false] at h
  rcases h with ⟨rfl, rfl⟩ | ⟨rfl, rfl⟩ | ⟨rfl, rfl⟩ | ⟨rfl, rfl⟩ | ⟨rfl, rfl⟩ | ⟨rfl, rfl⟩ |
    ⟨rfl, rfl⟩ | ⟨rfl, rfl⟩ | ⟨rfl, rfl⟩ <;> rfl

/-- A reserved word, or no word at all. -/
def Token.isReserved : Token → Bool
  | .word w => keywords.contains w
  | .mark _ => true
  | .number _ | .string _ => false

theorem lookup_of_isReserved {β : Type} {table : List (Token × β)}
    (h : table.all (·.1.isReserved) = true) (ht : t.isReserved = false) : table.lookup t = none := by
  refine List.lookup_eq_none_iff.2 fun p hp => ?_
  have hp' : p.1.isReserved = true := List.all_eq_true.1 h p hp
  have hne : t ≠ p.1 := by
    rintro rfl
    rw [hp'] at ht
    cases ht
  simpa using hne

theorem begin_identifier {name : String} (h : name ∉ keywords)
    (stack : List Frame) :
    State.begin stack (.word name) = some (.operator (Build.identifier name) stack) := by
  have hname : (Token.word name).isReserved = false := by
    simpa [Token.isReserved] using h
  have hnew : name ≠ "new" := by
    rintro rfl
    exact h (by decide)
  have hconstants : constants.lookup (.word name) = none := lookup_of_isReserved rfl hname
  have hoperators : prefixOperators.lookup (.word name) = none := lookup_of_isReserved rfl hname
  simp [State.begin, hconstants, hoperators, hnew]

/-- After a chain comes a dot, a bracket or a parenthesis. -/
theorem Reads.chain (h : Reads s ts e) (hs : s.IsChain) (hstack : Below s.room stack)
    (ht : (Follower.of t).strength = 17) (us : List Token) :
    (State.operand stack).run (ts ++ t :: us) = (State.extend e stack t).bind (State.run · us) := by
  refine h.follow hstack ?_ ?_ us
  · exact Nat.le_of_eq (ht.trans hs.reach.symm)
  · rw [ht]
    exact hstack.mono hs.room.2

/-- A sequence in brackets. -/
theorem Reads.bracketed {closing : String} {e' : Node} (h : Reads .expression ts e)
    (hf : f.strength = 0) (ht : Follower.of (.mark closing) = .other)
    (hclosing : State.extend e (f :: stack) (.mark closing) = some (.operator e' stack)) :
    (State.operand (f :: stack)).run (ts ++ [.mark closing]) = some (.operator e' stack) := by
  have hstrength : (Follower.of (.mark closing)).strength = 2 := by
    rw [ht]
    rfl
  rw [h.follow (below_cons (by rw [hf]; decide)) (by rw [hstrength]; decide)
    (below_cons (by rw [hf, hstrength]; decide)), hclosing]
  rfl

/-- A comma after an expression in brackets makes a sequence. -/
theorem extend_comma (hstack : Below 1 stack) (e : Node) :
    State.extend e stack (.mark ",") = some (.operand (.sequence e :: stack)) := by
  cases stack with
  | nil => rfl
  | cons f stack =>
    have hf : f.strength < 1 := hstack f rfl
    cases f with
    | parenthesis | index => rfl
    | _ => simp [Frame.strength] at hf

theorem extend_parenthesis (hstack : Below 16 stack) (e : Node) :
    State.extend e stack (.mark "(") = some (.operand (.items (.call e) [] :: stack)) := by
  cases stack with
  | nil => rfl
  | cons f stack =>
    have hf : f.strength < 16 := hstack f rfl
    cases f with
    | construct => simp [Frame.strength] at hf
    | _ => rfl

theorem Derives.reads (h : Derives s ts e) : Reads s ts e := by
  induction h with
  | unit hs _ ih => exact ih.unit hs
  | constant h => exact reads_token (begin_constant h)
  | identifier _ h => exact reads_token (begin_identifier h)
  | number x => exact reads_token fun _ => rfl
  | string s => exact reads_token fun _ => rfl
  | array _ ih =>
    refine reads_of_run fun stack _ => ?_
    exact run_closing ih .array stack
  | arrayComma hne _ ih =>
    refine reads_of_run fun stack _ => ?_
    exact run_comma_closing ih hne .array stack
  | parenthesized _ ih =>
    refine reads_of_run fun stack _ => ?_
    exact ih.bracketed (f := .parenthesis) rfl rfl rfl
  | member hs _ _ ih =>
    refine reads_of_run fun stack hstack => ?_
    rw [ih.chain hs hstack rfl]
    rfl
  | index hs _ _ ihs ih =>
    refine reads_of_run fun stack hstack => ?_
    refine (ihs.chain hs hstack rfl _).trans ?_
    exact ih.bracketed (f := .index _) rfl rfl rfl
  | construct _ _ ih ihs =>
    refine reads_of_run fun stack _ => ?_
    have hbelow : Below Symbol.member.room (.construct :: stack) := below_cons (by decide)
    refine (ih.chain (.inl rfl) hbelow rfl _).trans ?_
    exact run_closing ihs (.construct _) stack
  | constructBare _ ih =>
    exact ih.opened (f := .construct) (fun _ => rfl) (by decide) (by decide) (by decide)
  | call hs _ _ ih ihs =>
    refine reads_of_run fun stack hstack => ?_
    refine (ih.chain hs (hstack.mono hs.room.1) rfl _).trans ?_
    rw [extend_parenthesis hstack]
    exact run_closing ihs (.call _) stack
  | @update ts e t op _ hop ih =>
    refine reads_of_run fun stack hstack => ?_
    have ht : Follower.of t = .update op := follower_of_suffix hop
    have hstrength : (Follower.of t).strength = 16 := by rw [ht]; rfl
    rw [ih.follow hstack (Nat.le_of_eq hstrength) (by rw [hstrength]; exact hstack),
      State.extend, ht]
    rfl
  | @unary _ _ _ op hop _ ih =>
    exact ih.opened (begin_operator hop) (show 14 < 15 by decide) (Nat.le_refl _) (Nat.le_refl 14)
  | @operation k ts us l r t op _ hop _ ihl ihr =>
    have ht : Follower.of t = .binary k op := follower_of_rung hop
    have hstrength : (Follower.of t).strength = 4 + k := by rw [ht]; rfl
    obtain ⟨hroom, hreach⟩ := Symbol.le_rung (k := k + 1) k.isLt
    refine ihl.operator (f := .binary k op l) ihr (fun stack _ => ?_) (Nat.le_refl _)
      (Nat.le_of_eq hstrength) (Nat.le_of_eq hstrength.symm) hroom (Nat.le_trans ?_ hreach)
      (Nat.le_refl _)
    · rw [State.extend, ht]
    · exact Nat.le_succ _
  | @conditional ts us vs c a b _ _ _ ihc iha ihb =>
    intro stack hstack
    have hcondition : Below (Symbol.rung 0).room stack := hstack.mono (by decide)
    have hconsequent (q : Nat) (hq : 1 < q) : Below q (.consequent c :: stack) := below_cons hq
    rw [List.append_assoc, List.cons_append,
      ihc.follow (t := .mark "?") hcondition (by decide) (hstack.mono (by decide))]
    change ∃ e' stack', (State.operand (.consequent c :: stack)).run (us ++ .mark ":" :: vs) =
      some (.operator e' stack') ∧ _
    rw [iha.follow (t := .mark ":") (hconsequent _ (by decide)) (by decide)
      (hconsequent _ (by decide))]
    exact ihb.fill (f := .alternative c a) (show 2 < 3 by decide) (Nat.le_refl _) (Nat.le_refl 2)
      stack
  | @assign ts us e v t op _ hop _ iht ihv =>
    have ht : Follower.of t = .assign op := follower_of_assign hop
    have hstrength : (Follower.of t).strength = 16 := by rw [ht]; rfl
    refine iht.operator (f := .assign op e) ihv (fun stack _ => ?_) (by decide)
      (Nat.le_of_eq hstrength) (by rw [hstrength]; decide) (show 2 < 3 by decide) (Nat.le_refl _)
      (Nat.le_refl 2)
    rw [State.extend, ht]
  | sequence _ _ iha ihb =>
    exact iha.operator (f := .sequence _) ihb (fun stack hstack => extend_comma hstack _) (by decide)
      (by decide) (by decide) (show 2 < 3 by decide) (by decide) (Nat.le_refl 2)

/-- The reader finds the tree that derives. -/
theorem Derives.read_eq (h : Derives .expression ts e) : read ts = some e := by
  obtain ⟨e', stack', hrun, hclose⟩ := h.reads [] fun f hf => nomatch hf
  rw [read, hrun]
  change some (close 2 e' stack').1 = some e
  rw [hclose 2 (Nat.le_refl 2)]
  rfl

/-- An expression has one tree. -/
theorem Derives.unique {e' : Node} (h : Derives .expression ts e) (h' : Derives .expression ts e') :
    e' = e := by
  have hread : some e' = some e := h'.read_eq.symm.trans h.read_eq
  exact Option.some.inj hread

end ScriptMinifier.Script
