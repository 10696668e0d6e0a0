import ConfigScript.Proofs.Operator.Grammar
import ConfigScript.Proofs.Parser.CollectionsBack
import ConfigScript.Proofs.Token.Apart

/-! # Precedence climbing

Where the terminals of a derivation come next, the reader of expressions takes them, stops before
what ends the expression, and comes to the tree of the derivation. Each level is read as its rule
says, if the level below it is; the induction is on the levels. -/

namespace ConfigScript

open Scan Node

/-- The kinds of tokens that stand for a terminal. -/
def Terminal.Allows : Terminal → TokenKind → Prop
  | .word _, kind => kind = .word ∨ kind = .number
  | .operator _ keyword, kind => kind = if keyword then .keyword else .operator

instance : (t : Terminal) → (kind : TokenKind) → Decidable (t.Allows kind)
  | .word _, kind => inferInstanceAs (Decidable (kind = .word ∨ kind = .number))
  | .operator _ keyword, kind =>
    inferInstanceAs (Decidable (kind = if keyword then .keyword else .operator))

/-- The kinds of tokens that stand for some terminal. -/
def TokenKind.isTerm : TokenKind → Bool
  | .word => true
  | .number => true
  | .operator => true
  | .keyword => true
  | _ => false

theorem Terminal.Allows.kind_ne {t : Terminal} {kind kind' : TokenKind} (h : t.Allows kind)
    (hk : kind'.isTerm = false) : kind ≠ kind' := by
  have hterm : kind.isTerm = true := by
    cases t with
    | word text => rcases h with rfl | rfl <;> rfl
    | operator name keyword => cases keyword <;> (subst h; rfl)
  rintro rfl
  exact absurd (hterm.symm.trans hk) (by decide)

/-- Terminals with a blank in front of each, up to a closing parenthesis. -/
def spaced : List Terminal → List Char
  | [] => [')']
  | t :: ts => ' ' :: (t.text.toList ++ spaced ts)

/-- In front of what follows, a terminal is read as one token in an operation, and as no structure
elsewhere. -/
structure ReadsAlone (operators : OperatorTable) (t : Terminal) (rest : List Char) : Prop where
  token : ∃ kind, t.Allows kind
    ∧ Lexes .operation (t.text.toList ++ rest) kind (some t.text) rest operators
  unexpected : ∃ after,
    Lexes .unexpected (t.text.toList ++ rest) .unexpected none after operators

def ReadApart (operators : OperatorTable) : List Terminal → Prop
  | [] => True
  | t :: ts => ReadsAlone operators t (spaced ts) ∧ ReadApart operators ts

/-- The text of terminals, with or without a blank in front of the first one. -/
inductive Writes : List Terminal → List Char → Prop
  | further (ts : List Terminal) : Writes ts (spaced ts)
  | first (t : Terminal) (ts : List Terminal) : Writes (t :: ts) (t.text.toList ++ spaced ts)

theorem length_lt_spaced (ts : List Terminal) : ts.length < (spaced ts).length := by
  induction ts with
  | nil => decide
  | cons t ts ih =>
    simp only [spaced, List.length_cons, List.length_append]
    omega

theorem Writes.length_le {ts : List Terminal} {text : List Char} (h : Writes ts text) :
    ts.length ≤ text.length := by
  cases h with
  | further => exact Nat.le_of_lt (length_lt_spaced ts)
  | first t ts =>
    have hlt := length_lt_spaced ts
    simp only [List.length_cons, List.length_append]
    omega

/-- The first token, where terminals come next. -/
inductive FirstToken : List Terminal → TokenKind → Option String → List Char → Prop
  | closer : FirstToken [] .rightParen none []
  | terminal (t : Terminal) (ts : List Terminal) (kind : TokenKind) (allows : t.Allows kind) :
    FirstToken (t :: ts) kind (some t.text) (spaced ts)

theorem Writes.lexes {operators : OperatorTable} {ts : List Terminal} {text : List Char}
    (h : Writes ts text) (ha : ReadApart operators ts) :
    ∃ kind literal rest, FirstToken ts kind literal rest
      ∧ Lexes .operation text kind literal rest operators := by
  cases ts with
  | nil =>
    cases h with
    | further => exact ⟨_, _, _, .closer, lexes_sign rfl []⟩
  | cons t ts =>
    obtain ⟨kind, hk, hl⟩ := ha.1.token
    cases h with
    | further => exact ⟨_, _, _, .terminal t ts kind hk, hl.blank⟩
    | first => exact ⟨_, _, _, .terminal t ts kind hk, hl⟩

section

variable {ts : List Terminal} {kind : TokenKind} {literal : Option String} {rest : List Char}

theorem FirstToken.kind_ne (h : FirstToken ts kind literal rest) : kind ≠ .lineBreak := by
  cases h with
  | closer => decide
  | terminal t ts kind allows => exact allows.kind_ne rfl

theorem FirstToken.operatorOf? (h : FirstToken ts kind literal rest) (l : Level) (start : Nat) :
    Parser.operatorOf? l ⟨kind, start, literal⟩ = ts.head?.bind l.find? := by
  cases h with
  | closer => rfl
  | terminal t ts kind allows =>
    cases t with
    | word text => rcases allows with rfl | rfl <;> rfl
    | operator name keyword => cases keyword <;> (subst allows; rfl)

end

namespace Parser

variable {operators : OperatorTable} {root : List Node} {s : ParserState} {ts : List Terminal}
  {l : Level} {ls : List Level}

/-- The terminals come next, and behind them a closing parenthesis ends the text. -/
structure Facing (operators : OperatorTable) (root : List Node) (ts : List Terminal)
    (s : ParserState) : Prop where
  quiet : Quiet root s operators
  apart : ReadApart operators ts
  text : ∃ text, Writes ts text ∧ s.tokenizer.Poised .operation text operators
    ∧ text.length ≤ s.tokenizer.committed.rest.length

/-! ## Operators -/

theorem facing_tail {text : List Char} {token : Token} {t : Terminal} (hq : Quiet root s operators)
    (ha : ReadApart operators (t :: ts)) (hw : Writes (t :: ts) text)
    (hs : s.tokenizer.Holds text token (spaced ts)) : Facing operators root ts s := by
  refine ⟨hq, ha.2, spaced ts, .further ts, hs.toRests.poised .operation, ?_⟩
  have hc : s.tokenizer.committed.rest = text := hs.since.committed
  rw [hc]
  cases hw with
  | further => simp only [spaced, List.length_cons, List.length_append]; omega
  | first => simp

theorem facing_replay {text rest : List Char} {token : Token} (hq : Quiet root s operators)
    (ha : ReadApart operators ts) (hw : Writes ts text)
    (hl : Lexes .operation text token.kind token.literal rest operators)
    (hs : s.tokenizer.Holds text token rest) :
    Facing operators root ts { s with tokenizer := s.tokenizer.replay } :=
  ⟨hq.setTokenizer hq.queued, ha, text, hw, hs.replay hl,
    Nat.le_of_eq (congrArg List.length hs.since.committed).symm⟩

theorem operator?_facing (l : Level) (skipBreaks : Bool) (h : Facing operators root ts s) :
    Yields (operator? l skipBreaks) s fun r t =>
      match ts.head?.bind l.find? with
      | some o => (∃ position, r = some (o, position)) ∧ Facing operators root ts.tail t
      | none => r = none ∧ Facing operators root ts t := by
  obtain ⟨text, hw, hp, hlen⟩ := h.text
  obtain ⟨kind, literal, rest, hfirst, hl⟩ := hw.lexes h.apart
  refine Yields.discard_hold h.quiet hp hl (fun _ => hfirst.kind_ne) fun start t hq ht => ?_
  simp only [hfirst.operatorOf? l start]
  cases ho : ts.head?.bind l.find? with
  | some o =>
    cases hfirst with
    | closer => cases ho
    | terminal t ts kind _ => exact ⟨⟨start, rfl⟩, facing_tail hq h.apart hw ht⟩
  | none =>
    exact Yields.modify_bind ⟨rfl, facing_replay hq h.apart hw hl ht⟩

theorem operatorCall_quiet (hq : Quiet root s operators) (o : Operator) (operands : List Node)
    (position : Nat) :
    Yields (operatorCall o operands position) s fun m t =>
      m.withoutInfo = o.applied (operands.map withoutInfo) ∧ t = s := by
  refine (callMacro_quiet hq _ .operation position).mono fun m t hm => ?_
  obtain ⟨rfl, rfl⟩ := hm
  refine ⟨?_, rfl⟩
  rw [withoutInfo_placedAt, withoutInfo, withoutInfoItems_eq]
  rfl

theorem operator?_sign (h : Layered (l :: ls)) (o : l.Sign) (skipBreaks : Bool)
    (hs : Facing operators root (.ofOperator o :: ts) s) :
    Yields (operator? l skipBreaks) s fun r t =>
      (∃ position, r = some (o.val, position)) ∧ Facing operators root ts t := by
  have hread := operator?_facing l skipBreaks hs
  simp only [List.head?_cons, Option.bind_some, h.find?_sign o] at hread
  exact hread

theorem operator?_none (hm : ∀ t ∈ ts.head?, l.Misses t) (skipBreaks : Bool)
    (hs : Facing operators root ts s) :
    Yields (operator? l skipBreaks) s fun r t => r = none ∧ Facing operators root ts t := by
  have hread := operator?_facing l skipBreaks hs
  have hnone : ts.head?.bind l.find? = none := by
    cases ts with
    | nil => rfl
    | cons t ts => exact hm t rfl
  simp only [hnone] at hread
  exact hread

/-! ## Levels -/

/-- The parser reads the terminals in front of what ends the expressions of the levels, and comes
to the node. -/
def Climbs (operators : OperatorTable) (ls : List Level) (p : Parser Node) (written : List Terminal)
    (n : Node) : Prop :=
  ∀ root ts s, Bars ls ts → Facing operators root (written ++ ts) s →
    Yields p s fun m t => m.withoutInfo = n ∧ Facing operators root ts t

theorem Facing.length_le (h : Facing operators root ts s) :
    ts.length ≤ s.tokenizer.committed.rest.length := by
  obtain ⟨text, hw, -, hlen⟩ := h.text
  exact Nat.le_trans hw.length_le hlen

section

variable {E X : Type} {operand : Parser Node} {write : E → List Terminal} {value : E → Node}
  {used : E → List Operator}

theorem length_le_signed (sign : X → l.Sign) (body : X → List Terminal) (xs : List X) :
    xs.length ≤ (Layered.signed sign body xs).length := by
  induction xs with
  | nil => simp
  | cons x xs ih =>
    simp only [Layered.signed, List.flatMap_cons, List.length_append, List.length_cons] at ih ⊢
    omega

/-- A loop that takes a turn for each operator of a level, up to what ends the expressions of the
level. -/
theorem loop_signed (sign : X → l.Sign) (body : X → List Terminal) (h : Layered (l :: ls))
    (hl : l.form ≠ .prefixed)
    {step : Node → Parser (Turn Node)} {apply : Node → X → Node} {xs : List X}
    (hdone : ∀ a ts s, (∀ t ∈ ts.head?, l.Misses t) → Facing operators root ts s →
      Yields (step a) s fun r t => r = .done a ∧ Facing operators root ts t)
    (hagain : ∀ x ∈ xs, ∀ a ts s, Bars ls ts →
      Facing operators root (.ofOperator (sign x) :: (body x ++ ts)) s →
      Yields (step a) s fun r t =>
        ∃ m, r = .again m ∧ m.withoutInfo = apply a.withoutInfo x ∧ Facing operators root ts t)
    (hbars : Bars (l :: ls) ts) (a : Node)
    (hs : Facing operators root (Layered.signed sign body xs ++ ts) s) :
    Yields (loop step a) s fun m t =>
      m.withoutInfo = xs.foldl apply a.withoutInfo ∧ Facing operators root ts t := by
  have hlen : xs.length < s.tokenizer.committed.rest.length + 2 := by
    have hle := hs.length_le
    have hxs := length_le_signed sign body xs
    rw [List.length_append] at hle
    omega
  refine Yields.get_bind ?_
  generalize s.tokenizer.committed.rest.length + 2 = n at hlen
  -- The number of turns left is more than the number of operators left.
  induction n generalizing xs a s with
  | zero => omega
  | succ n ih =>
    cases xs with
    | nil =>
      refine Yields.bind (hdone a ts s (hbars.misses hl) hs) fun r t hr => ?_
      obtain ⟨rfl, ht⟩ := hr
      exact ⟨rfl, ht⟩
    | cons x xs =>
      rw [Layered.signed, List.flatMap_cons, List.cons_append, List.cons_append,
        List.append_assoc] at hs
      refine Yields.bind (hagain x List.mem_cons_self a _ s (h.bars_signed hl xs hbars) hs)
        fun r t hr => ?_
      obtain ⟨m, rfl, hm, ht⟩ := hr
      rw [List.foldl_cons, ← hm]
      exact ih (fun y hy => hagain y (List.mem_cons_of_mem x hy)) m ht (by simpa using hlen)

theorem leftAssociative_reads (h : Layered (l :: ls)) (hl : l.form = .left) {first : E}
    {rest : List (l.Sign × E)} (hfirst : Climbs operators ls operand (write first) (value first))
    (hrest : ∀ p ∈ rest, p.1.val.isAccessor = false
      ∧ Climbs operators ls operand (write p.2) (value p.2)) :
    Climbs operators (l :: ls) (leftAssociative l operand)
      (Layer.flatten .ofOperator write (.left hl first rest))
      (Layer.tree value (.left hl first rest)) := by
  intro root ts s hbars hs
  have hne : l.form ≠ .prefixed := by simp [hl]
  rw [Layer.flatten, List.append_assoc] at hs
  refine Yields.bind (hfirst root _ s (h.bars_signed hne rest hbars) hs) fun a t ha => ?_
  obtain ⟨hvalue, ht⟩ := ha
  rw [Layer.tree, ← hvalue]
  refine loop_signed Prod.fst (fun p => write p.2) h hne ?_ ?_ hbars a ht
  · intro a us u hm hu
    refine Yields.bind (operator?_none hm false hu) fun r v hr => ?_
    obtain ⟨rfl, hv⟩ := hr
    exact ⟨rfl, hv⟩
  · rintro ⟨o, b⟩ hp a us u hus hu
    obtain ⟨haccess, hb⟩ := hrest _ hp
    refine Yields.bind (operator?_sign h o false hu) fun r v hr => ?_
    obtain ⟨⟨position, rfl⟩, hv⟩ := hr
    refine Yields.bind (hb root us v hus hv) fun n w hn => ?_
    obtain ⟨hn, hw⟩ := hn
    refine Yields.of_ite (fun hacc => absurd hacc (by simpa using haccess)) fun _ => ?_
    refine Yields.bind (operatorCall_quiet hw.quiet o.val [a, n] position) fun m x hm => ?_
    obtain ⟨hm, rfl⟩ := hm
    refine ⟨m, rfl, ?_, hw⟩
    rw [hm, ← hn]
    rfl

theorem postfixed_reads (h : Layered (l :: ls)) (hl : l.form = .postfixed) {first : E}
    (rest : List l.Sign) (hfirst : Climbs operators ls operand (write first) (value first)) :
    Climbs operators (l :: ls) (postfixed l operand)
      (Layer.flatten .ofOperator write (.postfixed hl first rest))
      (Layer.tree value (.postfixed hl first rest)) := by
  intro root ts s hbars hs
  have hne : l.form ≠ .prefixed := by simp [hl]
  rw [Layer.flatten, List.append_assoc, List.map_eq_flatMap] at hs
  have hends : Bars ls (Layered.signed id (fun _ : l.Sign => []) rest ++ ts) :=
    h.bars_signed hne rest hbars
  refine Yields.bind (hfirst root _ s hends hs) fun a t ha => ?_
  obtain ⟨hvalue, ht⟩ := ha
  rw [Layer.tree, ← hvalue]
  refine loop_signed id (fun _ => []) h hne ?_ ?_ hbars a ht
  · intro a us u hm hu
    refine Yields.bind (operator?_none hm false hu) fun r v hr => ?_
    obtain ⟨rfl, hv⟩ := hr
    exact ⟨rfl, hv⟩
  · intro o _ a us u _ hu
    refine Yields.bind (operator?_sign h o false hu) fun r v hr => ?_
    obtain ⟨⟨position, rfl⟩, hv⟩ := hr
    refine Yields.bind (operatorCall_quiet hv.quiet o.val [a] position) fun m x hm => ?_
    obtain ⟨hm, rfl⟩ := hm
    exact ⟨m, rfl, hm, hv⟩

theorem rightAssociative_reads (h : Layered (l :: ls)) (hl : l.form = .right)
    (hE : ∀ a, (∀ o ∈ used a, o.isAccessor = false) →
      Climbs operators ls operand (write a) (value a))
    (d : Layer l E) (hd : ∀ o ∈ d.flatten id used, o.isAccessor = false) {n : Nat}
    (hn : (d.flatten .ofOperator write).length < n) :
    Climbs operators (l :: ls) (rightAssociative l operand n) (d.flatten .ofOperator write)
      (d.tree value) := by
  have hne : l.form ≠ .prefixed := by simp [hl]
  -- Each turn takes a terminal, and there are fewer of them than `n`.
  induction d generalizing n with
  | left hl' => exact absurd (hl'.symm.trans hl) (by decide)
  | rightmost _ a =>
    cases n with
    | zero => omega
    | succ n =>
      intro root ts s hbars hs
      refine Yields.bind (hE a hd root ts s hbars.tail hs) fun m t hm => ?_
      obtain ⟨hm, ht⟩ := hm
      refine Yields.bind (operator?_none (hbars.misses hne) false ht) fun r u hr => ?_
      obtain ⟨rfl, hu⟩ := hr
      exact ⟨hm, hu⟩
  | right _ a o b ih =>
    cases n with
    | zero => omega
    | succ n =>
      intro root ts s hbars hs
      simp only [Layer.flatten, List.mem_append, List.mem_cons] at hd
      simp only [Layer.flatten, List.length_append, List.length_cons] at hn
      rw [Layer.flatten, List.append_assoc, List.cons_append] at hs
      have ha := hE a fun p hp => hd p (.inl hp)
      have hb := ih (fun p hp => hd p (.inr (.inr hp))) (n := n) (by omega)
      refine Yields.bind (ha root _ s (h.bars_sign hne o _) hs) fun x t hx => ?_
      obtain ⟨hx, ht⟩ := hx
      refine Yields.bind (operator?_sign h o false ht) fun r u hr => ?_
      obtain ⟨⟨position, rfl⟩, hu⟩ := hr
      refine Yields.bind (hb root ts u hbars hu) fun y v hy => ?_
      obtain ⟨hy, hv⟩ := hy
      refine (operatorCall_quiet hv.quiet o.val [x, y] position).mono fun m w hm => ?_
      obtain ⟨hm, rfl⟩ := hm
      refine ⟨?_, hv⟩
      rw [hm, Layer.tree, ← hx, ← hy]
      rfl
  | unprefixed hl' => exact absurd (hl'.symm.trans hl) (by decide)
  | prefixed hl' => exact absurd (hl'.symm.trans hl) (by decide)
  | postfixed hl' => exact absurd (hl'.symm.trans hl) (by decide)

theorem prefixed_reads (h : Layered (l :: ls)) (hl : l.form = .prefixed)
    (hopens : ∀ a, ∃ t ts, write a = t :: ts ∧ Opens ls t)
    (hE : ∀ a, (∀ o ∈ used a, o.isAccessor = false) →
      Climbs operators ls operand (write a) (value a))
    (d : Layer l E) (hd : ∀ o ∈ d.flatten id used, o.isAccessor = false) {n : Nat}
    (hn : (d.flatten .ofOperator write).length < n) :
    Climbs operators (l :: ls) (prefixed l operand n) (d.flatten .ofOperator write)
      (d.tree value) := by
  induction d generalizing n with
  | left hl' => exact absurd (hl'.symm.trans hl) (by decide)
  | rightmost hl' => exact absurd (hl'.symm.trans hl) (by decide)
  | right hl' => exact absurd (hl'.symm.trans hl) (by decide)
  | unprefixed _ a =>
    cases n with
    | zero => omega
    | succ n =>
      intro root ts s hbars hs
      have hmiss : ∀ t ∈ (write a ++ ts).head?, l.Misses t := by
        obtain ⟨t, us, ha, ht⟩ := hopens a
        simp only [ha, List.cons_append, List.head?_cons, Option.mem_def, Option.some.injEq]
        rintro _ rfl
        exact h.misses_opening hl ht
      refine Yields.bind (operator?_none hmiss true hs) fun r t hr => ?_
      obtain ⟨rfl, ht⟩ := hr
      exact hE a hd root ts t hbars.tail ht
  | prefixed _ o a ih =>
    cases n with
    | zero => omega
    | succ n =>
      intro root ts s hbars hs
      simp only [Layer.flatten, List.mem_cons] at hd
      simp only [Layer.flatten, List.length_cons] at hn
      have ha := ih (fun p hp => hd p (.inr hp)) (n := n) (by omega)
      refine Yields.bind (operator?_sign h o true hs) fun r t hr => ?_
      obtain ⟨⟨position, rfl⟩, ht⟩ := hr
      refine Yields.bind (ha root ts t hbars ht) fun x u hx => ?_
      obtain ⟨hx, hu⟩ := hx
      refine (operatorCall_quiet hu.quiet o.val [x] position).mono fun m v hm => ?_
      obtain ⟨hm, rfl⟩ := hm
      refine ⟨?_, hu⟩
      rw [hm, Layer.tree, ← hx]
      rfl
  | postfixed hl' => exact absurd (hl'.symm.trans hl) (by decide)

theorem expression_cons (term : Parser Node) (l : Level) (ls : List Level) :
    expression term (l :: ls) =
      match l.form with
      | .left => leftAssociative l (expression term ls)
      | .right => bound >>= rightAssociative l (expression term ls)
      | .prefixed => bound >>= prefixed l (expression term ls)
      | .postfixed => postfixed l (expression term ls) := by
  rw [expression, Level.form]
  cases l.fixity with
  | binary => cases l.rightAssociative <;> rfl
  | prefixed => rfl
  | postfixed => rfl

theorem Climbs.of_bound {p : Nat → Parser Node} {written : List Terminal} {n : Node}
    (h : ∀ k, written.length < k → Climbs operators ls (p k) written n) :
    Climbs operators ls (bound >>= p) written n := by
  intro root ts s hbars hs
  refine Yields.get_bind (h _ ?_ root ts s hbars hs)
  have hle := hs.length_le
  rw [List.length_append] at hle
  omega

theorem expression_cons_reads {term : Parser Node} (h : Layered (l :: ls))
    (hopens : ∀ a, ∃ t ts, write a = t :: ts ∧ Opens ls t)
    (hE : ∀ a, (∀ o ∈ used a, o.isAccessor = false) →
      Climbs operators ls (expression term ls) (write a) (value a))
    (d : Layer l E) (hd : ∀ o ∈ d.flatten id used, o.isAccessor = false) :
    Climbs operators (l :: ls) (expression term (l :: ls)) (d.flatten .ofOperator write)
      (d.tree value) := by
  have hright (hl : l.form = .right) : Climbs operators (l :: ls) (expression term (l :: ls))
      (d.flatten .ofOperator write) (d.tree value) := by
    rw [expression_cons, hl]
    exact .of_bound fun k hk => rightAssociative_reads h hl hE d hd hk
  have hprefixed (hl : l.form = .prefixed) : Climbs operators (l :: ls) (expression term (l :: ls))
      (d.flatten .ofOperator write) (d.tree value) := by
    rw [expression_cons, hl]
    exact .of_bound fun k hk => prefixed_reads h hl hopens hE d hd hk
  cases d with
  | left hl first rest =>
    rw [expression_cons, hl]
    simp only [Layer.flatten, List.mem_append, List.mem_flatMap, List.mem_cons] at hd
    refine leftAssociative_reads h hl (hE first fun o ho => hd o (.inl ho)) fun p hp => ?_
    exact ⟨hd p.1 (.inr ⟨p, hp, .inl rfl⟩),
      hE p.2 fun o ho => hd o (.inr ⟨p, hp, .inr ho⟩)⟩
  | rightmost hl => exact hright hl
  | right hl => exact hright hl
  | unprefixed hl => exact hprefixed hl
  | prefixed hl => exact hprefixed hl
  | postfixed hl first rest =>
    rw [expression_cons, hl]
    simp only [Layer.flatten, List.mem_append] at hd
    exact postfixed_reads h hl rest (hE first fun o ho => hd o (.inl ho))

end

/-! ## Terms -/

theorem term_reads (inner : Parser (Option Node)) (depth : Nat) (word : String) :
    Climbs operators [] (term inner (collection (depth + 1) true)) [.word word]
      (Node.value word) := by
  intro root ts s _ hs
  obtain ⟨text, hw, hp, -⟩ := hs.text
  obtain ⟨kind, literal, rest, hfirst, hl⟩ := hw.lexes hs.apart
  cases hfirst with
  | terminal _ _ _ allows =>
    have hholds : kind.holdsText = true := by rcases allows with rfl | rfl <;> rfl
    have hnext : ∃ kind' literal' after,
        Lexes .unexpected (spaced ts) kind' literal' after operators
        ∧ isOpening kind' = false ∧ kind' ≠ .lineBreak := by
      cases ts with
      | nil => exact ⟨.rightParen, none, [], lexes_sign rfl [], rfl, by decide⟩
      | cons t ts =>
        obtain ⟨after, hl'⟩ := hs.apart.2.1.unexpected
        exact ⟨.unexpected, none, after, hl'.blank, rfl, by decide⟩
    obtain ⟨kind', literal', after, hl', ho, hbreak⟩ := hnext
    refine Yields.modify_bind (Yields.bind (collection_literal depth true
      hs.quiet.discard hp.discard hl hholds (.here hl' fun _ => hbreak) ho) fun v t ht => ?_)
    obtain ⟨rfl, hq, hfresh⟩ := ht
    have hreplay := hfresh.replay
    refine Yields.modify_bind (Yields.next_hand (hq.setTokenizer hq.queued)
      (hreplay.toRests.poised .operation) hl (fun _ => TokenKind.ne_of_holdsText hholds rfl)
      fun start u hqu hu => ?_)
    refine Yields.of_ite (fun _ => ?_) fun h => absurd rfl h
    refine (primitiveValue_quiet hqu _).mono fun m v hm => ?_
    obtain ⟨rfl, rfl⟩ := hm
    exact ⟨withoutInfo_placedAt _ start, facing_tail hqu hs.apart hw (hu.holds hreplay.taken)⟩

/-- Every expression that the levels derive is read as its tree. -/
theorem expression_reads (inner : Parser (Option Node)) (depth : Nat) : {ls : List Level} →
    Layered ls → (d : Derivation ls) → (∀ o ∈ d.operators, o.isAccessor = false) →
    Climbs operators ls (expression (term inner (collection (depth + 1) true)) ls) d.terminals
      d.tree
  | [], _, word, _ => term_reads inner depth word
  | _ :: _, h, d, hd =>
    expression_cons_reads h Derivation.opens (expression_reads inner depth h.tail) d hd

end Parser

end ConfigScript
