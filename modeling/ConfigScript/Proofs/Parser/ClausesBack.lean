import ConfigScript.Parser.Statement
import ConfigScript.Proofs.Operator.Written
import ConfigScript.Proofs.Parser.Quiet
import ConfigScript.Proofs.Token.Lines

/-! # Clauses read back

What stands after the name of an operator is read as the clause that it was written for. Words end
at blanks; the clause ends at its priority, or in front of the colon of an alias or the end of the
line, where the parser looks for another clause. -/

namespace ConfigScript.Parser

open Scan Text Operator

variable {root : List Node} {s : ParserState} {operators : OperatorTable} {rest tail : List Char}
  {c : ClauseWords} {o : Operator} {n : Nat}

/-- Nothing has been reported, and the text comes next, to be read in the mode. -/
structure Faces (mode : ReadMode) (root : List Node) (operators : OperatorTable)
    (text : List Char) (s : ParserState) : Prop where
  quiet : Quiet root s operators
  poised : s.tokenizer.Poised mode text operators

/-! ## Words -/

theorem fixityOfWord?_label (f : Fixity) : fixityOfWord? f.label = some f := by
  cases f <;> rfl

theorem clauseWord_fixity {f : Fixity} (hc : c.fixity = none)
    (hs : Faces .plainWord root operators (' ' :: (f.label.toList ++ rest)) s)
    (hrest : Halts (rulesOf .plainWord) rest) :
    Yields (clauseWord c) s fun r t => r = .again { c with fixity := some f }
      ∧ Faces .plainWord root operators rest t := by
  have hne : f.label.toList ≠ [] := by cases f <;> decide
  refine Yields.discard_hold hs.quiet hs.poised (lexes_plainWord hne f.bare_label hrest).blank
    (by simp) fun start t hqt ht => ?_
  simp only [Token.statementWord, Token.text, Option.getD_some, if_true, fixityOfWord?_label,
    addFixity, hc]
  exact ⟨rfl, hqt, ht.toRests.poised _⟩

theorem clauseWord_property {p : OperatorProperty} (hp : p ≠ .plain) (hc : c.properties = [])
    (hs : Faces .plainWord root operators (' ' :: (p.label.toList ++ rest)) s)
    (hrest : Halts (rulesOf .plainWord) rest) :
    Yields (clauseWord c) s fun r t => r = .again { c with properties := [p.label] }
      ∧ Faces .plainWord root operators rest t := by
  have hne : p.label.toList ≠ [] := by cases p <;> decide
  have hfixity : fixityOfWord? p.label = none := by cases p <;> decide
  have hword : propertyWords.contains p.label = true := by
    cases p
    · exact absurd rfl hp
    · decide
    · decide
  refine Yields.discard_hold hs.quiet hs.poised (lexes_plainWord hne p.bare_label hrest).blank
    (by simp) fun start t hqt ht => ?_
  simp only [Token.statementWord, Token.text, Option.getD_some, if_true, hfixity, hword,
    addProperty, hc, List.contains_nil, Bool.false_eq_true, if_false, List.nil_append]
  exact ⟨rfl, hqt, ht.toRests.poised _⟩

/-! ## The end of a clause -/

/-- What may stand behind a clause: an alias, or the end of the line. -/
inductive EndsClause : List Char → Prop
  | colon (rest : List Char) : EndsClause (' ' :: ':' :: rest)
  | line (rest : List Char) : EndsClause ('\n' :: rest)
  | last : EndsClause []

theorem EndsClause.halts (h : EndsClause tail) : Halts (rulesOf .plainWord) tail := by
  cases h with
  | colon rest => exact halts_blank _ _
  | line rest =>
    intro c hc
    rw [List.head?_cons, Option.mem_def, Option.some.injEq] at hc
    exact .inr (hc ▸ rfl)
  | last => simp [Halts]

theorem number?_value {p : Number} (hp : p.isNaN = false)
    (hread : Number.readTrimmed? p.text = some p) (start : Nat) :
    Token.number? ⟨.value, start, some p.text⟩ = some p := by
  simp [Token.number?, Token.text, hread, Option.filter, hp]

theorem priority_reads {p : Number} (hp : p.isNaN = false)
    (hread : Number.readTrimmed? p.text = some p) (hq : Quiet root s operators)
    (hr : s.tokenizer.Rests (p.text.toList ++ ')' :: rest)) :
    Yields (priority c) s fun r t => r = { c with priority := some p } ∧ Quiet root t operators
      ∧ t.tokenizer.Rests rest := by
  have hends : Ends (rulesOf .value) (')' :: rest) := by
    intro d hd
    simp only [List.head?_cons, Option.mem_def, Option.some.injEq] at hd
    exact hd ▸ rfl
  have hl : Lexes .value (p.text.toList ++ ')' :: rest) .value (some p.text) (')' :: rest)
      operators :=
    lexes_wordKind rfl (by decide) (Number.ne_nil_of_readTrimmed? hread) p.bare_text
      fun policy pos => word_bare policy .value rfl (fun _ => rfl) p.bare_text hends pos
  refine Yields.discard_hold hq (hr.poised _) hl (by simp) fun start t hqt ht => ?_
  rw [number?_value hp hread start]
  have hcloser : Yields (expect .rightParen) t fun _ u =>
      Quiet root u operators ∧ u.tokenizer.Rests rest := by
    refine Yields.next_hand hqt (ht.toRests.poised _) (lexes_sign rfl rest) (by simp)
      fun start u hqu hu => ?_
    exact ⟨hqu, hu.toRests⟩
  exact Yields.bind hcloser fun _ u hu => ⟨rfl, hu⟩

theorem statementWord_sign (kind : TokenKind) (start : Nat) :
    Token.statementWord ⟨kind, start, none⟩ = "" := by
  unfold Token.statementWord
  split <;> rfl

theorem endOfClause_rewinds {kind : TokenKind} {after : List Char} {start : Nat}
    (hk : kind = .colon ∨ kind = .lineBreak)
    (hl : Lexes .plainWord tail kind none after operators) (hq : Quiet root s operators)
    (hs : s.tokenizer.Holds tail ⟨kind, start, none⟩ after) :
    Yields (endOfClause c kind) s fun r t => r = c ∧ Faces .plainWord root operators tail t := by
  have hback : Yields (rewind false >>= fun _ => pure c) s fun r t =>
      r = c ∧ Faces .plainWord root operators tail t :=
    Yields.replay_bind hq hs hl fun t hqt ht => ⟨rfl, hqt, ht⟩
  rcases hk with rfl | rfl
  · exact hback
  · exact hback

theorem clauseWord_ends (ht : EndsClause tail) (hs : Faces .plainWord root operators tail s) :
    Yields (clauseWord c) s fun r t => r = .done c ∧ Faces .plainWord root operators tail t := by
  have hback {kind : TokenKind} {after : List Char} (hk : kind = .colon ∨ kind = .lineBreak)
      (hl : Lexes .plainWord tail kind none after operators) :
      Yields (clauseWord c) s fun r t => r = .done c ∧ Faces .plainWord root operators tail t := by
    refine Yields.discard_hold hs.quiet hs.poised hl (by simp) fun start t hqt ht => ?_
    rw [statementWord_sign]
    refine Yields.bind (endOfClause_rewinds hk hl hqt ht) fun r u hu => ?_
    exact ⟨congrArg Turn.done hu.1, hu.2⟩
  cases ht with
  | colon rest => exact hback (.inl rfl) (lexes_sign rfl _).blank
  | line rest => exact hback (.inr rfl) (lexes_lineBreak _ rest)
  | last =>
    refine Yields.discard_hold hs.quiet hs.poised (lexes_end _) (by simp) fun start t hqt ht => ?_
    exact ⟨rfl, hqt, ht.toRests.poised _⟩

theorem clauseWord_priority {p : Number} (hp : p.isNaN = false)
    (hread : Number.readTrimmed? p.text = some p)
    (hs : Faces .plainWord root operators (' ' :: '(' :: (p.text.toList ++ ')' :: rest)) s) :
    Yields (clauseWord c) s fun r t => r = .done { c with priority := some p }
      ∧ Faces .plainWord root operators rest t := by
  refine Yields.discard_hold hs.quiet hs.poised (lexes_sign rfl _).blank (by simp)
    fun start t hqt ht => ?_
  refine Yields.bind (priority_reads hp hread hqt ht.toRests) fun r u hu => ?_
  obtain ⟨rfl, hqu, hru⟩ := hu
  exact ⟨rfl, hqu, hru.poised _⟩

/-! ## Whole clauses -/

/-- A checked operator whose priority is read back as it is written. -/
structure Restorable (o : Operator) : Prop where
  valid : o.Valid
  priority : Number.readTrimmed? o.priority.text = some o.priority

theorem turns_done {α : Type} {step : α → Parser (Turn α)} {a b : α} {P : ParserState → Prop}
    (h : Yields (step a) s fun r t => r = .done b ∧ P t) (n : Nat) :
    Yields (turns step (n + 1) a) s fun r t => r = b ∧ P t := by
  refine Yields.bind h fun r t ht => ?_
  obtain ⟨rfl, ht⟩ := ht
  exact ⟨rfl, ht⟩

theorem turns_again {α : Type} {step : α → Parser (Turn α)} {a b : α} {P : ParserState → Prop}
    {Q : α → ParserState → Prop} (h : Yields (step a) s fun r t => r = .again b ∧ P t)
    (hrest : ∀ t, P t → Yields (turns step n b) t Q) : Yields (turns step (n + 1) a) s Q := by
  refine Yields.bind h fun r t ht => ?_
  obtain ⟨rfl, ht⟩ := ht
  exact hrest t ht

theorem halts_priorityChars (o : Operator) (ht : EndsClause tail) :
    Halts (rulesOf .plainWord) (o.priorityChars ++ tail) := by
  unfold priorityChars
  split
  · exact ht.halts
  · exact halts_blank _ _

theorem halts_propertyChars (o : Operator) (ht : EndsClause tail) :
    Halts (rulesOf .plainWord) (o.propertyChars ++ (o.priorityChars ++ tail)) := by
  unfold propertyChars
  split
  · exact halts_priorityChars o ht
  · exact halts_blank _ _

/-- The words that the properties of an operator are written with. -/
def propertyWordsOf (p : OperatorProperty) : List String :=
  if p = .plain then [] else [p.label]

theorem turns_priority (ho : Restorable o) (ht : EndsClause tail) (hc : c.priority = none)
    (hs : Faces .plainWord root operators (o.priorityChars ++ tail) s) :
    Yields (turns clauseWord (n + 1) c) s fun r t => r = { c with priority := o.writtenPriority }
      ∧ Faces .plainWord root operators tail t := by
  unfold priorityChars at hs
  cases hp : o.writtenPriority with
  | none =>
    rw [hp] at hs
    rw [← hc]
    exact turns_done (clauseWord_ends ht hs) n
  | some p =>
    rw [hp] at hs
    have hpriority : p = o.priority := by
      unfold writtenPriority at hp
      split at hp
      · simp at hp
      · exact (Option.some.inj hp).symm
    subst hpriority
    refine turns_done (clauseWord_priority ho.valid.priority ho.priority ?_) n
    simpa using hs

theorem turns_property (ho : Restorable o) (ht : EndsClause tail) (hc : c.priority = none)
    (hproperties : c.properties = [])
    (hs : Faces .plainWord root operators (o.propertyChars ++ (o.priorityChars ++ tail)) s) :
    Yields (turns clauseWord (n + 2) c) s fun r t =>
      r = { c with properties := propertyWordsOf o.property, priority := o.writtenPriority }
        ∧ Faces .plainWord root operators tail t := by
  by_cases hp : o.property = .plain
  · have hnone : o.propertyChars = [] := by simp [propertyChars, hp]
    have hwords : propertyWordsOf o.property = c.properties := by
      rw [hproperties, propertyWordsOf, if_pos hp]
    rw [hnone] at hs
    rw [hwords]
    exact turns_priority ho ht hc hs
  · have hsome : o.propertyChars = ' ' :: o.property.label.toList := by
      unfold propertyChars
      split
      · exact absurd ‹_› hp
      · rfl
    rw [hsome, List.cons_append] at hs
    rw [propertyWordsOf, if_neg hp]
    exact turns_again (clauseWord_property hp hproperties hs (halts_priorityChars o ht))
      fun t hst => turns_priority ho ht hc hst

theorem propertyConflict?_words (ho : o.Valid) :
    propertyConflict? o.fixity (propertyWordsOf o.property) = none := by
  have hplain := ho.sound.plain
  cases hf : o.fixity <;> cases hp : o.property <;> simp_all [propertyConflict?, propertyWordsOf]
  all_goals decide

theorem propertyOfWords_words (p : OperatorProperty) : propertyOfWords (propertyWordsOf p) = p := by
  cases p <;> decide

theorem clause_reads (ho : Restorable o) (ht : EndsClause tail)
    (hpos : 0 < s.tokenizer.committed.rest.length)
    (hs : Faces .plainWord root operators (' ' :: (o.fixity.label.toList
      ++ (o.propertyChars ++ (o.priorityChars ++ tail)))) s) :
    Yields Parser.clause s fun r t => r = some o.clause
      ∧ Faces .plainWord root operators tail t := by
  have hwords : Yields (loop clauseWord {}) s fun r t =>
      r = ⟨some o.fixity, propertyWordsOf o.property, o.writtenPriority, false⟩
        ∧ Faces .plainWord root operators tail t := by
    obtain ⟨n, hn⟩ : ∃ n, s.tokenizer.committed.rest.length = n + 1 :=
      Nat.exists_eq_succ_of_ne_zero (Nat.pos_iff_ne_zero.mp hpos)
    refine Yields.get_bind ?_
    rw [hn]
    exact turns_again (clauseWord_fixity rfl hs (halts_propertyChars o ht)) fun t hst =>
      turns_property ho ht rfl rfl hst
  refine Yields.bind hwords fun r t hst => ?_
  obtain ⟨rfl, hst⟩ := hst
  simp only [Bool.false_eq_true, if_false, propertyConflict?_words ho.valid, propertyOfWords_words]
  exact ⟨rfl, hst⟩

end ConfigScript.Parser
