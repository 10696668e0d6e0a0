import ConfigScript.Proofs.Operator.Listing
import ConfigScript.Proofs.Parser.ClausesBack
import ConfigScript.Proofs.Parser.Exported
import ConfigScript.Proofs.Parser.RoundTrip

/-! # Operators read back

The statements of the operators of a table, one a line, compile to this table and to nothing else.
Behind each statement the parser looks past the end of its line for another clause, and at the next
statement, and goes back to where the line ends. -/

namespace ConfigScript.Parser

open Scan Text Operator OperatorTable

variable {root : List Node} {s : ParserState} {operators operators' : OperatorTable}
  {rest more : List Char} {o : Operator}

/-! ## Ends of lines -/

/-- The text is over, or starts with the statement of an operator. -/
inductive StartsLine : List Char → Prop
  | last : StartsLine []
  | operator (o : Operator) (rest : List Char) :
    StartsLine (o.statementWord.toList ++ ' ' :: rest)

/-- What stands behind a statement: nothing, or a line break in front of what is left. -/
inductive EndsLine : List Char → List Char → Prop
  | last : EndsLine [] []
  | line {more : List Char} (h : StartsLine more) : EndsLine ('\n' :: more) more

/-- Nothing has been reported, and a statement has been read up to its end. -/
inductive AtEnd (root : List Node) (operators : OperatorTable) :
    List Char → ParserState → Prop
  | last {s : ParserState} (hq : Quiet root s operators)
    (hp : s.tokenizer.Poised .unexpected [] operators) : AtEnd root operators [] s
  | line {more : List Char} {s : ParserState} (h : StartsLine more) (hq : Quiet root s operators)
    (hb : s.tokenizer.AtBreak more operators) : AtEnd root operators more s

theorem EndsLine.atEnd (h : EndsLine rest more) (hq : Quiet root s operators)
    (hr : s.tokenizer.Rests rest) : AtEnd root operators more s := by
  cases h with
  | last => exact .last hq (hr.poised _)
  | line h => exact .line h hq (.poised (hr.poised _))

theorem statementWord_ne_nil (o : Operator) : o.statementWord.toList ≠ [] := by
  unfold statementWord
  split <;> decide

theorem endStatement_reads (h : AtEnd root operators more s) :
    Yields endStatement s fun r t => r = true ∧ Faces .plainWord root operators more t := by
  cases h with
  | last hq hp =>
    refine Yields.discard_hold hq hp (lexes_end _) (by simp) fun start t hqt ht => ?_
    exact ⟨rfl, hqt, ht.toRests.poised _⟩
  | line h hq hb =>
    obtain ⟨hkind, hpoised, hreports⟩ := hb.discard.next hq.queued
    refine Yields.modify_bind (Yields.next_quiet hq.discard hreports fun t hqt htt => ?_)
    simp only [hkind]
    rw [← htt] at hpoised
    cases h with
    | last =>
      refine Yields.discard_hold hqt hpoised (lexes_end _) (by simp) fun start u hqu hu => ?_
      exact Yields.replay_bind hqu hu (lexes_end _) fun v hqv hv => ⟨rfl, hqv, hv⟩
    | operator o rest =>
      obtain ⟨after, hl⟩ : ∃ after, Lexes .unexpected _ .unexpected none after operators :=
        lexes_bare_unexpected_blank (statementWord_ne_nil o) o.bare_statementWord rest
      refine Yields.discard_hold hqt hpoised hl (by simp) fun start u hqu hu => ?_
      exact Yields.reread_bind hqu hu.since fun v hqv hv => ⟨rfl, hqv, hv.toRests.poised _⟩

theorem expectEnd_reads (message : String) (h : AtEnd root operators more s) :
    Yields (expectEnd message) s fun _ t => Faces .plainWord root operators more t := by
  refine Yields.bind (endStatement_reads h) fun r t ht => ?_
  obtain ⟨rfl, ht⟩ := ht
  exact ht

/-! ## Clauses and aliases -/

theorem endsClause_aliasChars (o : Operator) (h : EndsLine rest more) :
    EndsClause (o.aliasChars ++ rest) := by
  unfold aliasChars
  split
  · cases h with
    | last => exact .last
    | line => exact .line _
  · exact .colon _

/-- The token after the clauses leads to the alias, if there is one, and to the end of the line. -/
def ReadsAlias (root : List Node) (operators : OperatorTable) (substitute : Option String)
    (more : List Char) (token : Token) (s : ParserState) : Prop :=
  token.statementWord ≠ "and" ∧ Yields (readAlias token) s fun r t =>
    r = (true, substitute) ∧ AtEnd root operators more t

theorem sign_ne_and (kind : TokenKind) (start : Nat) :
    Token.statementWord ⟨kind, start, none⟩ ≠ "and" := by
  rw [statementWord_sign]
  decide

theorem readAlias_colon (a : String) (h : EndsLine rest more) (hq : Quiet root s operators)
    (hr : s.tokenizer.Rests (' ' :: ((writeValue a).toList ++ rest))) (start : Nat) :
    ReadsAlias root operators (some a) more ⟨.colon, start, none⟩ s := by
  have hends : Ends (rulesOf .value) rest := by
    cases h with
    | last => simp [Ends]
    | line _ =>
      intro c hc
      rw [List.head?_cons, Option.mem_def, Option.some.injEq] at hc
      exact hc ▸ rfl
  obtain ⟨kind, hk, hl⟩ := lexes_written .value rfl (written_writeValue a) hends
  refine ⟨sign_ne_and _ start, Yields.next_hand hq (hr.poised _)
    (hl.known (by decide) : Lexes _ _ _ _ _ operators).blank
    (fun _ => TokenKind.ne_of_holdsText hk rfl) fun start' t hqt ht => ?_⟩
  exact ⟨rfl, h.atEnd hqt ht.toRests⟩

theorem readAlias_rewinds {token : Token} (hk : token.kind ≠ .colon)
    (hw : token.statementWord ≠ "and")
    (h : Yields (rewind token.isLiteral) s fun _ t => AtEnd root operators more t) :
    ReadsAlias root operators none more token s := by
  refine ⟨hw, Yields.of_ite (fun he => absurd he hk) fun _ => Yields.bind h fun _ t ht => ?_⟩
  exact ⟨rfl, ht⟩

theorem statementWord_ne_and (o : Operator) : o.statementWord ≠ "and" := by
  unfold statementWord
  split <;> decide

theorem readAlias_line (h : StartsLine more) (hs : Faces .plainWord root operators ('\n' :: more) s)
    (ht : s.tokenizer.taken = []) {β : Type} {f : Token → Parser β} {Q : β → ParserState → Prop}
    (hf : ∀ token t, ReadsAlias root operators none more token t → Yields (f token) t Q) :
    Yields (next true .plainWord >>= f) s Q := by
  have hpast {kind : TokenKind} {literal : Option String} {after : List Char}
      (hl : Lexes .plainWord more kind literal after operators)
      (hk : kind ≠ .lineBreak ∧ kind ≠ .colon)
      (hw : ∀ start, Token.statementWord ⟨kind, start, literal⟩ ≠ "and")
      (hback : ∀ start t, Quiet root t operators →
        t.tokenizer.Passed more ⟨kind, start, literal⟩ after →
        Yields (rewind literal.isSome) t fun _ u => AtEnd root operators more u) :
      Yields (next true .plainWord >>= f) s Q := by
    obtain ⟨start, htoken, hpassed, hreports⟩ := hs.poised.next_past hl hk.1 hs.quiet.queued ht
    refine Yields.next_quiet hs.quiet hreports fun t hqt htt => hf _ _ ?_
    rw [htoken] at hpassed ⊢
    exact readAlias_rewinds hk.2 (hw start) (hback start t hqt (htt ▸ hpassed))
  cases h with
  | last =>
    refine hpast (lexes_end _) (by decide) (sign_ne_and _) fun start t hqt hpassed => ?_
    exact .line .last (hqt.setTokenizer hqt.queued) (hpassed.replay (lexes_end _))
  | operator o rest =>
    have hl : Lexes .plainWord _ .plainWord _ _ operators :=
      lexes_plainWord (statementWord_ne_nil o) o.bare_statementWord (halts_blank _ rest)
    refine hpast hl (by decide) (fun _ => statementWord_ne_and o) fun start t hqt hpassed => ?_
    exact .line (.operator o rest) (hqt.setTokenizer hqt.queued)
      (.poised (hpassed.since.reread.toRests.poised _))

theorem clauseTurn_reads (ho : Restorable o) (h : EndsLine rest more)
    (hpos : 0 < s.tokenizer.committed.rest.length)
    (hs : Faces .plainWord root operators (' ' :: (o.fixity.label.toList
      ++ (o.propertyChars ++ (o.priorityChars ++ (o.aliasChars ++ rest))))) s) :
    Yields (clauseTurn {}) s fun r t =>
      ∃ token, r = .done { valid := [o.clause], after := some token }
        ∧ ReadsAlias root operators o.substitute more token t := by
  refine Yields.bind (clause_reads ho (endsClause_aliasChars o h) hpos hs) fun c t ht => ?_
  obtain ⟨rfl, ht⟩ := ht
  have hdone (token : Token) (u : ParserState)
      (hu : ReadsAlias root operators o.substitute more token u) :
      Yields (if token.statementWord = "and" then
          pure (.again { valid := [o.clause] } : Turn Clauses)
        else pure (.done { valid := [o.clause], after := some token })) u fun r t =>
        ∃ token, r = .done { valid := [o.clause], after := some token }
          ∧ ReadsAlias root operators o.substitute more token t :=
    Yields.of_ite (fun he => absurd he hu.1) fun _ => ⟨token, rfl, hu⟩
  unfold aliasChars at ht
  cases hsub : o.substitute with
  | some a =>
    rw [hsub] at ht hdone
    refine Yields.discard_hold ht.quiet ht.poised (lexes_sign rfl _).blank (by simp)
      fun start u hqu hu => hdone _ u ?_
    exact readAlias_colon a h hqu hu.toRests start
  | none =>
    rw [hsub] at ht hdone
    cases h with
    | last =>
      refine Yields.discard_hold ht.quiet ht.poised (lexes_end _) (by simp)
        fun start u hqu hu => hdone _ u ?_
      refine readAlias_rewinds (fun hk => by cases hk) (sign_ne_and _ start) ?_
      exact .last (hqu.setTokenizer hqu.queued) (hu.replay (lexes_end _))
    | line h =>
      refine Yields.modify_bind ?_
      exact readAlias_line h ⟨ht.quiet.discard, ht.poised.discard⟩ rfl hdone

/-! ## Statements -/

theorem registerOperator_quiet (hadd : operators.add o = (operators', .added)) (start : Nat)
    (hq : Quiet root s operators) :
    Yields (registerOperator start o) s fun _ t =>
      Quiet root t operators' ∧ t.tokenizer = s.tokenizer := by
  refine Yields.get_bind ?_
  have hvisible : s.visible.operators.add o = (operators', .added) := by rw [hq.visible, hadd]
  rw [hvisible]
  refine Yields.of_ite (fun _ => ?_) fun h => absurd rfl h
  refine ⟨⟨?_, hq.template, hq.reports, hq.queued, hq.exhausted, hq.root⟩, rfl⟩
  exact congrArg (fun d : Definition => { d with operators := operators' }) hq.visible

theorem registerClauses_quiet (ho : o.Valid) (hadd : operators.add o = (operators', .added))
    (start : Nat) (hq : Quiet root s operators) :
    Yields (registerClauses o.name o.keyword o.substitute start [o.clause]) s fun _ t =>
      Quiet root t operators' ∧ t.tokenizer = s.tokenizer := by
  rw [registerClauses]
  simp only [Operator.clause, ho.create_written]
  exact Yields.bind (registerOperator_quiet hadd start hq) fun _ t ht => ht

theorem AtEnd.known (h : AtEnd root operators more s) {t : ParserState}
    (hq : Quiet root t operators') (ht : t.tokenizer = s.tokenizer) :
    AtEnd root operators' more t := by
  cases h with
  | last _ hp => exact .last hq (ht ▸ hp.known (by decide))
  | line h _ hb => exact .line h hq (ht ▸ hb.known)

theorem definitionName_reads (name : String) (hq : Quiet root s operators)
    (hr : s.tokenizer.Rests (' ' :: ((writeValue name).toList ++ ' ' :: rest))) :
    Yields (definitionName .word) s fun r t => r = some name ∧ Quiet root t operators
      ∧ t.tokenizer.Since (' ' :: ((writeValue name).toList ++ ' ' :: rest)) (' ' :: rest) := by
  obtain ⟨kind, hk, hl⟩ : ∃ kind : TokenKind, kind.holdsText = true
      ∧ Lexes .word ((writeValue name).toList ++ ' ' :: rest) kind (some name) (' ' :: rest)
        operators :=
    lexes_written_blank rfl rfl (by decide) (written_writeValue name) rest
  refine Yields.discard_hold hq (hr.poised _) hl.blank
    (fun _ => TokenKind.ne_of_holdsText hk rfl) fun start t hqt ht => ?_
  exact ⟨rfl, hqt, ht.since⟩

theorem clauses_read (ho : Restorable o) (h : EndsLine rest more) {text : List Char}
    (htext : text ≠ []) (hq : Quiet root s operators)
    (hs : s.tokenizer.Since text (' ' :: (o.fixity.label.toList
      ++ (o.propertyChars ++ (o.priorityChars ++ (o.aliasChars ++ rest)))))) :
    Yields (loop clauseTurn {}) s fun cs t =>
      ∃ token, cs = { valid := [o.clause], after := some token }
        ∧ ReadsAlias root operators o.substitute more token t := by
  have hpos : 0 < s.tokenizer.committed.rest.length := by
    rw [hs.committed]
    exact List.length_pos_iff.mpr htext
  refine Yields.get_bind (Yields.bind
    (clauseTurn_reads ho h hpos ⟨hq, hs.toRests.poised _⟩) fun r t ht => ?_)
  obtain ⟨token, rfl, ht⟩ := ht
  exact ⟨token, rfl, ht⟩

theorem operatorStatement_reads (ho : Restorable o) (hadd : operators.add o = (operators', .added))
    (h : EndsLine rest more) (start : Nat) (hq : Quiet root s operators)
    (hr : s.tokenizer.Rests (' ' :: ((writeValue o.name).toList ++ (o.clauseChars ++ rest)))) :
    Yields (operatorStatement o.keyword start) s fun _ t =>
      Faces .plainWord root operators' more t := by
  simp only [clauseChars, List.cons_append, List.append_assoc] at hr
  refine Yields.bind (definitionName_reads o.name hq hr) fun r t ht => ?_
  obtain ⟨rfl, hqt, hst⟩ := ht
  have has : Lexes .plainWord ("as".toList ++ ' ' :: (o.fixity.label.toList
      ++ (o.propertyChars ++ (o.priorityChars ++ (o.aliasChars ++ rest))))) .plainWord (some "as") _
      operators :=
    lexes_plainWord (by decide) (by decide) (halts_blank _ _)
  refine Yields.next_hand hqt (hst.toRests.poised _) has.blank (by simp) fun start' u hqu hu => ?_
  refine Yields.of_ite (fun hw => absurd rfl hw) fun _ => ?_
  refine Yields.bind (clauses_read ho h (by simp) hqu (hst.hands hu)) fun cs v hv => ?_
  obtain ⟨token, rfl, -, halias⟩ := hv
  refine Yields.bind halias fun r w hw => ?_
  obtain ⟨rfl, hend⟩ := hw
  have hqw : Quiet root w operators := by cases hend <;> assumption
  simp only [if_true, Bool.not_false]
  refine Yields.bind (registerClauses_quiet ho.valid hadd start hqw) fun _ x hx => ?_
  exact expectEnd_reads _ (hend.known hx.1 hx.2)

theorem statement_operator (ho : Restorable o) (hadd : operators.add o = (operators', .added))
    (h : EndsLine rest more)
    (hs : Faces .plainWord root operators (o.text.toList ++ rest) s) :
    Yields statement s fun r t => r = .complete ∧ Faces .plainWord root operators' more t := by
  have hpoised := hs.poised
  rw [toList_text, List.append_assoc, List.cons_append, List.append_assoc] at hpoised
  have hword : Lexes .plainWord (o.statementWord.toList ++ ' ' :: ((writeValue o.name).toList
      ++ (o.clauseChars ++ rest))) .plainWord (some o.statementWord) _ operators :=
    lexes_plainWord (statementWord_ne_nil o) o.bare_statementWord (halts_blank _ _)
  refine Yields.discard_hold hs.quiet hpoised hword (by simp) fun start t hqt ht => ?_
  have hstatement := operatorStatement_reads ho hadd h start hqt ht.toRests
  have hdone : Yields (operatorStatement o.keyword start >>= fun _ => pure Statement.complete) t
      fun r u => r = .complete ∧ Faces .plainWord root operators' more u :=
    Yields.bind hstatement fun _ u hu => ⟨rfl, hu⟩
  unfold statementWord
  cases hk : o.keyword with
  | false =>
    rw [hk] at hdone
    exact hdone
  | true =>
    rw [hk] at hdone
    exact hdone

/-! ## Tables -/

variable {σ : Type} {os : List Operator} {text : List Char}

/-- The statements of operators, one a line; the last line may have a break behind it. -/
inductive Lines : List Operator → List Char → Prop
  | nil : Lines [] []
  | last (o : Operator) : Lines [o] o.text.toList
  | cons (o : Operator) {os : List Operator} {more : List Char} (h : Lines os more) :
    Lines (o :: os) (o.text.toList ++ '\n' :: more)

theorem Lines.startsLine (h : Lines os text) : StartsLine text := by
  have hstarts (o : Operator) (rest : List Char) : StartsLine (o.text.toList ++ rest) := by
    rw [toList_text, List.append_assoc, List.cons_append]
    exact .operator o _
  cases h with
  | nil => exact .last
  | last o => simpa using hstarts o []
  | cons o h => exact hstarts o _

theorem Lines.of_cons (h : Lines (o :: os) text) :
    ∃ rest more, text = o.text.toList ++ rest ∧ EndsLine rest more ∧ Lines os more := by
  cases h with
  | last o => exact ⟨[], [], (List.append_nil _).symm, .last, .nil⟩
  | cons o h => exact ⟨_, _, rfl, .line h.startsLine, h⟩

theorem Lines.length_le (h : Lines os text) : os.length ≤ text.length := by
  have hpos (o : Operator) : 0 < o.text.toList.length := by
    rw [toList_text, List.length_append, List.length_cons]
    omega
  induction h with
  | nil => simp
  | last o => exact hpos o
  | cons o _ ih =>
    have := hpos o
    simp only [List.length_cons, List.length_append]
    omega

theorem Lines.no_return (h : Lines os text) : '\r' ∉ text := by
  have hline (o : Operator) : '\r' ∉ o.text.toList := fun hc => (o.text_inLine _ hc).2 rfl
  induction h with
  | nil => simp
  | last o => exact hline o
  | cons o _ ih => simp [hline o, ih]

theorem lines_terminated (os : List Operator) :
    Lines os (os.flatMap fun o => o.text.toList ++ ['\n']) := by
  induction os with
  | nil => exact .nil
  | cons o os ih => simpa using Lines.cons o ih

theorem lines_separated (os : List Operator) :
    Lines os (List.intercalate ['\n'] (os.map fun o => o.text.toList)) := by
  induction os with
  | nil => exact .nil
  | cons o os ih =>
    cases os with
    | nil => simpa using Lines.last o
    | cons p ps => simpa using Lines.cons o ih

/-- Each statement adds its operator to those of the lines before. -/
theorem statements_read (resolve : Resolver σ) {done : List Operator}
    (ho : ∀ o ∈ os, Restorable o) (ha : KeepApart (done ++ os)) (hl : Listed (done ++ os))
    (h : Lines os text) {n : Nat} (hn : os.length < n)
    (hs : Faces .plainWord root ⟨done⟩ text s) (hsame : s.exported = s.visible) (i : σ) :
    ∃ t, statements resolve n s i = (true, t, i) ∧ Quiet root t ⟨done ++ os⟩
      ∧ t.exported = t.visible := by
  induction os generalizing done text n s with
  | nil =>
    cases n with
    | zero => simp at hn
    | succ n =>
      cases h with
      | nil =>
        obtain ⟨hr, hqt⟩ := statement_last hs.quiet hs.poised
        refine ⟨(statement.run s).2, ?_, by rwa [List.append_nil], statement_keepsAlike s hsame⟩
        rw [statements, turn_of_endOfFile hr]
  | cons o os ih =>
    cases n with
    | zero => simp at hn
    | succ n =>
      obtain ⟨rest, more, rfl, hend, hmore⟩ := h.of_cons
      rw [List.append_cons] at ha hl
      have hadd := add_last (List.pairwise_append.mp ha).1 (List.pairwise_append.mp hl).1
      obtain ⟨hr, hfaces⟩ := statement_operator (ho o List.mem_cons_self) hadd hend hs
      obtain ⟨t, hrun, hqt, hsame⟩ := ih (fun p hp => ho p (List.mem_cons_of_mem o hp)) ha hl hmore
        (by simpa using hn) hfaces (statement_keepsAlike s hsame)
      refine ⟨t, ?_, by rwa [List.append_cons], hsame⟩
      rw [statements, turn_of_complete hr]
      exact hrun

theorem compile_lines (config : Config) (resolve : Resolver σ) (imports : σ)
    {t : OperatorTable} (ht : t.Reachable)
    (hn : ∀ o ∈ t.operators, Number.readTrimmed? o.priority.text = some o.priority)
    {text : String} (h : Lines t.operators text.toList) :
    let result := compile config resolve {} (Source.ofText text) imports
    result.1.reports = [] ∧ result.1.root = [] ∧ result.1.definition = { operators := t }
      ∧ result.2 = imports := by
  intro result
  have hchars : (Source.ofText text).chars = text.toList := chars_ofText h.no_return
  have hlength : t.operators.length < (Source.ofText text).length + 2 := by
    have := h.length_le
    rw [Source.length, hchars]
    omega
  have hstart : Faces .plainWord [] ⟨[]⟩ text.toList
      (start config {} (Source.ofText text)) :=
    ⟨start_quiet config _, .unread ⟨rfl, hchars⟩⟩
  have hapart : KeepApart ([] ++ t.operators) := ht.keepApart
  obtain ⟨s, hrun, hq, hsame⟩ := statements_read resolve
    (fun o ho => ⟨ht.valid o ho, hn o ho⟩) hapart ht.listed h hlength hstart rfl imports
  have hresult : result = (⟨Source.ofText text, s.root, s.exported, s.reports⟩, imports) := by
    simp only [result, compile_eq hrun, hq.exhausted, Bool.not_false, Bool.and_self, if_true]
  rw [hresult, hsame]
  exact ⟨hq.reports, hq.root, hq.visible, rfl⟩

/-- The operators of a table that adding, replacing and removing lead to compile to this table
again, written one a line, with a break behind the last line or without. Nothing is reported, no
value results, and nothing is imported. Priorities are assumed to read back as they are written. -/
theorem compile_operators (config : Config) (resolve : Resolver σ) (imports : σ)
    {t : OperatorTable} (ht : t.Reachable)
    (hn : ∀ o ∈ t.operators, Number.readTrimmed? o.priority.text = some o.priority) :
    ∀ text ∈ [Definition.text { operators := t },
        String.intercalate "\n" (t.operators.map Operator.text)],
      let result := compile config resolve {} (Source.ofText text) imports
      result.1.reports = [] ∧ result.1.root = [] ∧ result.1.definition = { operators := t }
        ∧ result.2 = imports := by
  intro text hmem
  refine compile_lines config resolve imports ht hn ?_
  simp only [List.mem_cons, List.not_mem_nil, or_false] at hmem
  rcases hmem with rfl | rfl
  · have htext : (Definition.text { operators := t }).toList
        = t.operators.flatMap fun o => o.text.toList ++ ['\n'] := by
      simp [Definition.text, List.flatMap_map]
    rw [htext]
    exact lines_terminated _
  · have htext : (String.intercalate "\n" (t.operators.map Operator.text)).toList
        = List.intercalate ['\n'] (t.operators.map fun o => o.text.toList) := by
      simp [String.toList_intercalate, Function.comp_def]
    rw [htext]
    exact lines_separated _

/-- Spellings that have to be quoted, or are words of the statement itself. -/
def equality : Operator :=
  ⟨"=\"", false, .binary, some "and\n", .rightAssociative, Number.ofDecimal false 25 (-1)⟩

def negated : Operator := ⟨"as", true, .prefixed, some "", .plain, Number.ofInt 9⟩

def quotient : Operator := ⟨"/\\", false, .postfixed, none, .plain, Number.infinity true⟩

def oddTable : OperatorTable :=
  ((({} : OperatorTable).replace quotient).add negated).1.replace equality

theorem reachable_oddTable : oddTable.Reachable :=
  .replace (.add (.replace .empty ⟨some (Number.infinity true), by decide +kernel⟩)
    ⟨none, by decide +kernel⟩) ⟨some (Number.ofDecimal false 25 (-1)), by decide +kernel⟩

theorem compile_operators_odd :
    let resolve : Resolver Unit := fun _ i => (.crashed, i)
    let text := Definition.text { operators := oddTable }
    text = "operator \"/\\\\\" as postfix (-inf)\n"
        ++ "operator \"=\\\"\" as binary right-associative (2.5) : \"and\\n\"\n"
        ++ "keyword as as prefix : \"\"\n"
      ∧ (∀ o ∈ oddTable.operators, Number.readTrimmed? o.priority.text = some o.priority)
      ∧ (compile {} resolve {} (Source.ofText text) ()).1.definition
        = { operators := oddTable } := by
  intro resolve text
  have hn : ∀ o ∈ oddTable.operators, Number.readTrimmed? o.priority.text = some o.priority := by
    decide +kernel
  have h := compile_operators {} resolve () reachable_oddTable hn text List.mem_cons_self
  exact ⟨by decide +kernel, hn, h.2.2.1⟩

end ConfigScript.Parser
