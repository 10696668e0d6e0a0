import ConfigScript.Proofs.Parser.Climbing
import ConfigScript.Proofs.Parser.RoundTrip

/-! # Operator expressions compile to their derivations

In parentheses, the tokens of an expression with single blanks between them compile to the tree of
the derivation, if each of them is read as itself in front of a blank, and the last one in front of
the closing parenthesis. So no two derivations have the same tokens. -/

namespace ConfigScript

open Scan Node

/-! ## The first token of a text -/

/-- The first token of a text, as a term of an operation. -/
def firstTerm (policy : UnicodePolicy) (operators : OperatorTable) (text : String) : Token :=
  (Scan.next policy .operation operators (.start (Source.ofText text).chars)).token

/-- In front of a character, the terminal is read as one token. -/
def Terminal.ReadBefore (policy : UnicodePolicy) (operators : OperatorTable) (c : Char)
    (t : Terminal) : Prop :=
  let token := firstTerm policy operators (t.text.push c)
  t.Allows token.kind ∧ token.start = 0 ∧ token.literal = some t.text

instance (policy : UnicodePolicy) (operators : OperatorTable) (c : Char) (t : Terminal) :
    Decidable (t.ReadBefore policy operators c) :=
  inferInstanceAs (Decidable (_ ∧ _ ∧ _))

/-- No terminal has a backslash, and each is read as one token in front of a blank. -/
structure SpelledApart (policy : UnicodePolicy) (operators : OperatorTable) (ts : List Terminal) :
    Prop where
  plain : ∀ t ∈ ts, '\\' ∉ t.text.toList
  blank : ∀ t ∈ ts, t.ReadBefore policy operators ' '

section

variable {policy : UnicodePolicy} {operators : OperatorTable} {t t' : Terminal} {ts : List Terminal}

theorem Terminal.Allows.unique {kind : TokenKind} (h : t.Allows kind) (h' : t'.Allows kind)
    (htext : t.text = t'.text) : t = t' := by
  cases t with
  | word text =>
    cases t' with
    | word text' => exact congrArg Terminal.word htext
    | operator name keyword => rcases h with rfl | rfl <;> cases keyword <;> cases h'
  | operator name keyword =>
    cases t' with
    | word text => rcases h' with rfl | rfl <;> cases keyword <;> cases h
    | operator name' keyword' =>
      have hkeyword : keyword = keyword' := by
        cases keyword <;> cases keyword' <;> simp_all [Terminal.Allows]
      rw [hkeyword, show name = name' from htext]

theorem Terminal.ReadBefore.unique {c : Char} (h : t.ReadBefore policy operators c)
    (h' : t'.ReadBefore policy operators c) (htext : t.text = t'.text) : t = t' := by
  have hk := h'.1
  rw [← htext] at hk
  exact h.1.unique hk htext

theorem Terminal.ReadBefore.token {c : Char} (h : t.ReadBefore policy operators c) :
    ∃ kind, t.Allows kind ∧ (Scan.next policy .operation operators
      ⟨0, (Source.ofText (t.text.push c)).chars⟩).token = .ofLiteral kind 0 t.text.toList := by
  obtain ⟨hk, hstart, hliteral⟩ := h
  refine ⟨_, hk, ?_⟩
  rw [Token.ofLiteral, String.ofList_toList, ← hliteral]
  exact congrArg (fun start => (⟨_, start, _⟩ : Token)) hstart

theorem Terminal.ReadBefore.no_return {d : Char} (hd : d ∈ enders)
    (hplain : '\\' ∉ t.text.toList) (h : t.ReadBefore policy operators d) :
    '\r' ∉ t.text.toList := by
  obtain ⟨kind, hk, htoken⟩ := h.token
  have hb : '\\' ∉ (Source.ofText (t.text.push d)).chars := by
    intro hm
    rcases Source.mem_chars_ofText hm with hm | ⟨hm, -⟩
    · exact absurd hm (by decide)
    · rw [String.toList_push, List.mem_append, List.mem_singleton] at hm
      rcases hm with hm | rfl
      · exact hplain hm
      · exact absurd hd (by decide)
  intro hm
  rcases Source.mem_chars_ofText (mem_of_next hb (hk.kind_ne rfl) htoken hm) with hm | ⟨-, hm⟩
  · exact absurd hm (by decide)
  · exact hm rfl

/-- What is read as one token in front of a character is so in front of every text that starts with
the character and looks alike to the operators. -/
theorem Terminal.ReadBefore.alone {d : Char} (hd : d ∈ enders) {ys : List Char}
    (halike : operators.Alike [d] (d :: ys)) (hplain : '\\' ∉ t.text.toList)
    (h : t.ReadBefore policy operators d) : ReadsAlone operators t (d :: ys) := by
  obtain ⟨kind, hk, htoken⟩ := h.token
  have hchars : (Source.ofText (t.text.push d)).chars = t.text.toList ++ [d] := by
    rw [Parser.chars_ofText, String.toList_push]
    rw [String.toList_push, List.mem_append, List.mem_singleton]
    rintro (hm | rfl)
    · exact h.no_return hd hplain hm
    · exact absurd hd (by decide)
  rw [hchars] at htoken
  obtain ⟨c, v, hcv, hstarts, hlexes⟩ := lexes_apart hd hplain halike (hk.kind_ne rfl) htoken
  rw [String.ofList_toList] at hlexes
  refine ⟨⟨kind, hk, hlexes⟩, ?_⟩
  rw [hcv] at hplain ⊢
  exact lexes_unexpected hd (fun hm => hplain (List.mem_cons_of_mem c hm)) hstarts

theorem SpelledApart.tail (h : SpelledApart policy operators (t :: ts)) :
    SpelledApart policy operators ts :=
  ⟨fun u hu => h.plain u (List.mem_cons_of_mem t hu),
    fun u hu => h.blank u (List.mem_cons_of_mem t hu)⟩

theorem SpelledApart.unique {us : List Terminal} (h : SpelledApart policy operators ts)
    (h' : SpelledApart policy operators us)
    (htexts : ts.map Terminal.text = us.map Terminal.text) : ts = us := by
  induction ts generalizing us with
  | nil => exact (List.map_eq_nil_iff.mp htexts.symm).symm
  | cons t ts ih =>
    cases us with
    | nil => cases htexts
    | cons u us =>
      simp only [List.map_cons, List.cons.injEq] at htexts
      rw [(h.blank t List.mem_cons_self).unique (h'.blank u List.mem_cons_self) htexts.1,
        ih h.tail h'.tail htexts.2]

/-- Every terminal is read as one token where it is written. -/
theorem SpelledApart.readApart (hv : operators.Valid) (h : SpelledApart policy operators ts)
    (hlast : ∀ t ∈ ts.getLast?, t.ReadBefore policy operators ')') : ReadApart operators ts := by
  induction ts with
  | nil => trivial
  | cons t ts ih =>
    have hplain := h.plain t List.mem_cons_self
    cases ts with
    | nil => exact ⟨(hlast t rfl).alone (by decide) (fun _ => rfl) hplain, trivial⟩
    | cons u us =>
      refine ⟨?_, ih h.tail (by simpa using hlast)⟩
      exact (h.blank t List.mem_cons_self).alone (by decide) (hv.alike_blank _ _) hplain

end

/-! ## Operations -/

namespace Parser

variable {σ : Type} {resolve : Resolver σ} {operators : OperatorTable} {root : List Node}
  {s : ParserState} {ts : List Terminal} {text : List Char}

theorem operationEntry_reads {operand : Parser Node} {ls : List Level} {t : Terminal} {n : Node}
    (hread : Climbs operators ls operand (t :: ts) n) (hs : Facing operators root (t :: ts) s) :
    Yields (operationEntry operand []) s fun r u =>
      ∃ m, r = .done [m] ∧ m.withoutInfo = n ∧ Quiet root u operators ∧ u.tokenizer.Rests [] := by
  obtain ⟨text, hw, hp, -⟩ := hs.text
  obtain ⟨kind, literal, rest, hfirst, hl⟩ := hw.lexes hs.apart
  refine Yields.discard_hold hs.quiet hp hl (fun _ => hfirst.kind_ne) fun start u hq hu => ?_
  have hback := facing_replay hq hs.apart hw hl hu
  cases hfirst with
  | terminal _ _ _ allows =>
    split
    · exact absurd ‹_› (allows.kind_ne rfl)
    · exact absurd ‹_› (allows.kind_ne rfl)
    · exact absurd ‹_› (allows.kind_ne rfl)
    · rw [← List.append_nil (t :: ts)] at hback
      refine Yields.modify_bind (Yields.bind (hread root [] _ (bars_nil ls) hback) fun m v hm => ?_)
      obtain ⟨hm, hv⟩ := hm
      obtain ⟨text', hw', hp', -⟩ := hv.text
      obtain ⟨kind', literal', rest', hfirst', hl'⟩ := hw'.lexes hv.apart
      cases hfirst'
      refine Yields.discard_hold hv.quiet hp' hl' (by decide) fun start' x hqx hx => ?_
      exact ⟨m, rfl, hm, hqx, hx.toRests⟩

/-- The text writes the terminals of an expression without accessors, each to be read alone. -/
structure Legible (operators : OperatorTable) (d : Derivation operators.levels)
    (text : List Char) : Prop where
  layered : Layered operators.levels
  plain : ∀ o ∈ d.operators, o.isAccessor = false
  apart : ReadApart operators d.terminals
  writes : Writes d.terminals text

variable {d : Derivation operators.levels}

theorem operation_reads (inner : Parser (Option Node)) (depth start : Nat)
    (h : Legible operators d text) (hs : Facing operators root d.terminals s) :
    Yields (operation inner (collection (depth + 1) true) "" start) s fun m t =>
      (ungroup m).withoutInfo = d.tree ∧ Quiet root t operators ∧ t.tokenizer.Rests [] := by
  have hread : Climbs operators operators.levels
      (expression (term inner (collection (depth + 1) true)) operators.levels) d.terminals d.tree :=
    expression_reads inner depth h.layered d h.plain
  have hitems : Yields (operationItems inner (collection (depth + 1) true)) s fun items t =>
      ∃ m, items = [m] ∧ m.withoutInfo = d.tree ∧ Quiet root t operators
        ∧ t.tokenizer.Rests [] := by
    refine Yields.get_bind ?_
    rw [hs.quiet.visible]
    refine Yields.get_bind ?_
    obtain ⟨t, us, hterminals, -⟩ := d.opens
    rw [hterminals] at hread hs
    refine Yields.bind (operationEntry_reads hread hs) fun r u hr => ?_
    obtain ⟨m, rfl, hm⟩ := hr
    exact ⟨m, rfl, hm⟩
  refine Yields.bind hitems fun items t ht => ?_
  obtain ⟨m, rfl, ht⟩ := ht
  exact ht

theorem collection_reads (depth : Nat) (h : Legible operators d text)
    (hq : Quiet root s operators) (hp : s.tokenizer.Poised .value ('(' :: text) operators) :
    Yields (collection (depth + 2) false) s fun v t =>
      (∃ m, v = some m ∧ m.withoutInfo = d.tree) ∧ Quiet root t operators
        ∧ t.tokenizer.Rests [] := by
  refine Yields.discard_hold hq hp (lexes_sign rfl text) (by decide) fun start t hqt ht => ?_
  have hs : Facing operators root d.terminals t := by
    refine ⟨hqt, h.apart, text, h.writes, ht.toRests.poised .operation, ?_⟩
    have hc : t.tokenizer.committed.rest = '(' :: text := ht.since.committed
    rw [hc]
    exact Nat.le_succ _
  refine Yields.bind (operation_reads (collection (depth + 1) false) depth start h hs)
    fun m u hu => ?_
  exact ⟨⟨ungroup m, rfl, hu.1⟩, hu.2⟩

/-! ## Scripts -/

theorem valueStatement_reads {start : Nat} (h : Legible operators d text)
    (hq : Quiet root s operators)
    (hs : s.tokenizer.Holds ('(' :: text) ⟨.leftParen, start, none⟩ text) :
    Yields (valueStatement ⟨.leftParen, start, none⟩) s fun _ t =>
      ∃ m, m.withoutInfo = d.tree ∧ Quiet (root ++ [m]) t operators ∧ t.tokenizer.Rests [] := by
  have htop (t : ParserState) (hqt : Quiet root t operators)
      (hp : t.tokenizer.Poised .value ('(' :: text) operators)
      (hc : t.tokenizer.committed.rest = '(' :: text) :
      Yields topCollection t fun v u => (∃ m, v = some m ∧ m.withoutInfo = d.tree)
        ∧ Quiet root u operators ∧ u.tokenizer.Rests [] := by
    refine Yields.get_bind ?_
    rw [hc]
    exact collection_reads (text.length + 1) h hqt hp
  refine Yields.modify_bind (Yields.bind (htop _ (hq.setTokenizer hq.queued)
    (hs.replay (lexes_sign rfl text)) hs.since.committed) fun v t ht => ?_)
  obtain ⟨⟨m, rfl, hm⟩, hqt, hrt⟩ := ht
  exact (pushValue_last hqt hrt m).mono fun _ u hu => ⟨m, hm, hu⟩

theorem statement_reads (h : Legible operators d text) (hq : Quiet root s operators)
    (hp : s.tokenizer.Poised .plainWord ('(' :: text) operators) :
    Yields statement s fun r t => r = .complete
      ∧ ∃ m, m.withoutInfo = d.tree ∧ Quiet (root ++ [m]) t operators
        ∧ t.tokenizer.Rests [] := by
  refine Yields.discard_hold hq hp (lexes_sign rfl text) (by decide) fun start t hqt ht => ?_
  have hword : Token.statementWord ⟨.leftParen, start, none⟩ = "" := rfl
  refine Yields.of_ite (fun h => absurd h (by simp)) fun _ => ?_
  rw [hword]
  refine Yields.bind (valueStatement_reads h hqt ht) fun _ u hu => ?_
  exact ⟨rfl, hu⟩

/-- The tokens of an expression in parentheses, with single blanks between them. -/
def expressionText (ts : List Terminal) : String :=
  "(" ++ String.intercalate " " (ts.map Terminal.text) ++ ")"

theorem toList_expressionText (t : Terminal) (ts : List Terminal) :
    (expressionText (t :: ts)).toList = '(' :: (t.text.toList ++ spaced ts) := by
  have hspaced (t : Terminal) (ts : List Terminal) :
      List.intercalate [' '] ((t :: ts).map fun t => t.text.toList) ++ [')']
        = t.text.toList ++ spaced ts := by
    induction ts generalizing t with
    | nil => simp [spaced]
    | cons u us ih =>
      rw [List.map_cons, List.intercalate_cons_of_ne_nil (by simp), List.append_assoc, ih]
      simp [spaced]
  rw [expressionText, String.toList_append, String.toList_append, String.toList_intercalate]
  simpa [Function.comp_def] using hspaced t ts

theorem not_mem_spaced {ts : List Terminal} (h : ∀ t ∈ ts, '\r' ∉ t.text.toList) :
    '\r' ∉ spaced ts := by
  induction ts with
  | nil => decide
  | cons t ts ih =>
    simp only [spaced, List.mem_cons, List.mem_append, not_or]
    exact ⟨by decide, h t List.mem_cons_self, ih fun u hu => h u (List.mem_cons_of_mem t hu)⟩

/-- An expression that the levels of a table derive, without accessors, compiles to its tree and to
nothing else, and nothing is reported; and it is the only one with its tokens. Each token is read as
itself in front of a blank, and the last one in front of the closing parenthesis too. -/
theorem compile_expressionText (config : Config) (resolve : Resolver σ) (imports : σ)
    (h : operators.Reachable) (d : Derivation operators.levels)
    (hd : ∀ o ∈ d.operators, o.isAccessor = false)
    (hspelled : SpelledApart config.unicodePolicy operators d.terminals)
    (hlast : ∀ t ∈ d.terminals.getLast?, t.ReadBefore config.unicodePolicy operators ')') :
    (compile config resolve { operators } (Source.ofText (expressionText d.terminals))
        imports).1.reports = []
      ∧ (compile config resolve { operators } (Source.ofText (expressionText d.terminals))
        imports).1.root.map withoutInfo = [d.tree]
      ∧ ∀ d' : Derivation operators.levels,
        SpelledApart config.unicodePolicy operators d'.terminals →
        d'.terminals.map Terminal.text = d.terminals.map Terminal.text → d' = d := by
  have happart := hspelled.readApart h.valid hlast
  obtain ⟨t, ts, hts, -⟩ := d.opens
  have hreturn : ∀ t ∈ d.terminals, '\r' ∉ t.text.toList := fun t ht =>
    (hspelled.blank t ht).no_return (by decide) (hspelled.plain t ht)
  have hchars : (Source.ofText (expressionText d.terminals)).chars
      = '(' :: (t.text.toList ++ spaced ts) := by
    rw [hts] at hreturn ⊢
    rw [chars_ofText, toList_expressionText]
    rw [toList_expressionText, List.mem_cons, List.mem_append]
    rintro (hr | hr | hr)
    · exact absurd hr (by decide)
    · exact hreturn t List.mem_cons_self hr
    · exact not_mem_spaced (fun u hu => hreturn u (List.mem_cons_of_mem t hu)) hr
  have hlegible : Legible operators d (t.text.toList ++ spaced ts) :=
    ⟨h.layered, hd, happart, hts ▸ .first t ts⟩
  generalize Source.ofText (expressionText d.terminals) = source at hchars ⊢
  have hp : (start config { operators } source).tokenizer.Poised .plainWord
      ('(' :: (t.text.toList ++ spaced ts)) operators := .unread ⟨rfl, hchars⟩
  obtain ⟨hfirst, m, hm, hq, hr⟩ :=
    statement_reads hlegible (start_quiet config source) hp
  obtain ⟨hend, hq'⟩ := statement_last hq (hr.poised .plainWord)
  -- The script is one statement, and behind it the end of the text.
  have hrun : statements resolve (source.length + 2) (start config { operators } source) imports
      = (true, (statement.run (statement.run (start config { operators } source)).2).2,
        imports) := by
    rw [statements, turn_of_complete hfirst]
    simp only
    rw [statements, turn_of_endOfFile hend]
  rw [compile_eq hrun]
  simp only [hq'.exhausted, Bool.not_false, Bool.and_self, if_true]
  refine ⟨hq'.reports, ?_, fun d' hd' htexts => ?_⟩
  · rw [hq'.root]
    simp [hm]
  · exact Derivation.unique h.layered (hd'.unique hspelled htexts)

/-! ### A spelling of two operators, and a keyword -/

namespace Sample

def negation : Operator := ⟨"-", false, .prefixed, some "neg", .plain, Number.ofInt 9⟩

def difference : Operator := ⟨"-", false, .binary, none, .plain, Number.ofInt 6⟩

def power : Operator := ⟨"pow", true, .binary, none, .rightAssociative, Number.ofInt 8⟩

def table : OperatorTable := ((({} : OperatorTable).add negation).1.add difference).1.replace power

def differences : Level := ⟨.binary, Number.ofInt 6, false, [difference]⟩

def powers : Level := ⟨.binary, Number.ofInt 8, true, [power]⟩

def negations : Level := ⟨.prefixed, Number.ofInt 9, false, [negation]⟩

/-- The derivation of `a - - b pow 2`. -/
def raised : Derivation [differences, powers, negations] :=
  let word (text : String) : Layer negations String := .unprefixed rfl text
  let negated : Layer negations String := .prefixed rfl ⟨negation, by decide⟩ (word "b")
  let power : Layer powers (Layer negations String) :=
    .right rfl negated ⟨power, by decide⟩ (.rightmost rfl (word "2"))
  Layer.left rfl (.rightmost rfl (word "a")) [(⟨difference, by decide⟩, power)]

theorem reachable_table : table.Reachable :=
  .replace (.add (.add .empty ⟨some (Number.ofInt 9), rfl⟩) ⟨some (Number.ofInt 6), rfl⟩)
    ⟨some (Number.ofInt 8), rfl⟩

end Sample

theorem compile_expressionText_minus :
    let resolve : Resolver Unit := fun _ i => (.crashed, i)
    let d : Derivation Sample.table.levels := Sample.raised
    let compiled := (compile {} resolve { operators := Sample.table }
      (Source.ofText (expressionText d.terminals)) ()).1
    Sample.table.Reachable ∧ (∀ o ∈ d.operators, o.isAccessor = false)
      ∧ SpelledApart ({} : Config).unicodePolicy Sample.table d.terminals
      ∧ (∀ t ∈ d.terminals.getLast?, t.ReadBefore ({} : Config).unicodePolicy Sample.table ')')
      ∧ expressionText d.terminals = "(a - - b pow 2)" ∧ compiled.reports = []
      ∧ compiled.root.map withoutInfo =
        [.list "-" true [.value "a",
          .list "pow" true [.list "neg" true [.value "b"] {}, .value "2"] {}] {}] := by
  intro resolve d compiled
  have haccess : ∀ o ∈ d.operators, o.isAccessor = false := by decide +kernel
  have hspelled : SpelledApart ({} : Config).unicodePolicy Sample.table d.terminals :=
    ⟨by decide +kernel, by decide +kernel⟩
  have hlast : ∀ t ∈ d.terminals.getLast?,
      t.ReadBefore ({} : Config).unicodePolicy Sample.table ')' := by decide +kernel
  obtain ⟨hreports, hroot, -⟩ :=
    compile_expressionText {} resolve () Sample.reachable_table d haccess hspelled hlast
  exact ⟨Sample.reachable_table, haccess, hspelled, hlast, by decide +kernel, hreports, hroot⟩

/-! ### An operator that takes the closing parenthesis -/

namespace Sample

def shout : Operator := ⟨"!", false, .postfixed, none, .plain, Number.ofInt 10⟩

def close : Operator := ⟨"!)", false, .postfixed, none, .plain, Number.ofInt 10⟩

def shouts : OperatorTable := ((({} : OperatorTable).add shout).1.add close).1

/-- The derivation of `a !`. -/
def shouted : Derivation [⟨.postfixed, Number.ofInt 10, false, [shout, close]⟩] :=
  Layer.postfixed rfl "a" [⟨shout, by decide⟩]

theorem reachable_shouts : shouts.Reachable :=
  .add (.add .empty ⟨some (Number.ofInt 10), rfl⟩) ⟨some (Number.ofInt 10), rfl⟩

end Sample

/-- In front of blanks alone, the last token can be read as itself and still not be read where it
stands: there the longer operator is the one that is found. -/
theorem expressionText_closer_taken :
    let resolve : Resolver Unit := fun _ i => (.crashed, i)
    let d : Derivation Sample.shouts.levels := Sample.shouted
    Sample.shouts.Reachable ∧ (∀ o ∈ d.operators, o.isAccessor = false)
      ∧ SpelledApart ({} : Config).unicodePolicy Sample.shouts d.terminals
      ∧ expressionText d.terminals = "(a !)"
      ∧ (compile {} resolve { operators := Sample.shouts } (Source.ofText "(a !)") ()).1.reports
        ≠ [] :=
  ⟨Sample.reachable_shouts, by decide +kernel, ⟨by decide +kernel, by decide +kernel⟩,
    by decide +kernel, by decide +kernel⟩

end Parser

end ConfigScript
