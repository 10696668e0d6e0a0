import ConfigScript.Proofs.Parser.Blame
import ConfigScript.Proofs.Parser.Requests

/-! # Rejected operator statements

An operator statement is read to its end before anything is registered. What makes it invalid is
remembered while its clauses are read, so that a statement that registers has been read without an
error, but for the few that are passed over: the lexical ones, and those after which the words of a
clause, or the clauses, go on with what there is. -/

namespace ConfigScript

/-- The errors after which a clause goes on: an unknown word is left out, what follows a priority
is skipped up to its parenthesis, and what cannot belong to a clause ends it. -/
def passedOver : List String :=
  ["Unknown operator property; 'binary', 'prefix', 'postfix', "
      ++ "'left-associative', 'right-associative' or 'accessor' expected",
    s!"Expected {TokenKind.rightParen.label}", "Expected keyword"]

/-- A report that does not keep an operator statement from registering. -/
def Report.isPassedOver (r : Report) : Bool := r.isLexical || passedOver.contains r.message

/-- All errors are passed over. -/
def PassedOver (rs : List Report) : Prop := ∀ r ∈ rs, r.isError = true → r.isPassedOver = true

namespace Parser

variable {α β : Type} {s t u : ParserState} {P : Prop} {p : Parser α} {f : α → Parser β}
  {Q : α → Prop} {R : β → Prop}

/-! ## Reading that goes on -/

/-- Reading that reports no error but those passed over. -/
structure Tame (s t : ParserState) : Prop where
  grown : Extends s t
  reports : s.tokenizer.reports = [] → ∃ rs, t.reports = s.reports ++ rs ∧ PassedOver rs

theorem Extends.tame (h : Extends s t) (hr : t.reports = s.reports) : Tame s t :=
  ⟨h, fun _ => ⟨[], by rw [hr, List.append_nil], by simp [PassedOver]⟩⟩

theorem Tame.refl (s : ParserState) : Tame s s := (Extends.refl s).tame rfl

theorem Tame.trans (h : Tame s t) (g : Tame t u) : Tame s u := by
  refine ⟨h.grown.trans g.grown, fun hs => ?_⟩
  obtain ⟨rs, hrs, hpassed⟩ := h.reports hs
  obtain ⟨ss, hss, hpassed'⟩ := g.reports (h.grown.waiting hs)
  exact ⟨rs ++ ss, by rw [hss, hrs, List.append_assoc],
    List.forall_mem_append.mpr ⟨hpassed, hpassed'⟩⟩

instance : IsPreorder ParserState Tame where
  refl := Tame.refl
  trans _ _ _ := Tame.trans

theorem Extends.tame_of_blames (h : Extends s t)
    (hb : Blames (fun r => passedOver.contains r.message = true) s t) : Tame s t := by
  refine ⟨h, fun hs => ?_⟩
  obtain ⟨-, rs, hrs, hall⟩ := hb hs
  exact ⟨rs, hrs, fun r hr he => Bool.or_eq_true_iff.mpr (hall r hr he)⟩

theorem error_tame {message : String} (h : message ∈ passedOver) : Moves Tame (error message) := by
  intro s
  refine Yields.mono ((report_extends _ s).and (error_blames message)) fun _ t ht => ?_
  refine ht.1.tame_of_blames (ht.2.mono ?_)
  rintro r rfl
  exact List.contains_iff_mem.mpr h

theorem next_tame (skipBreaks : Bool) (mode : ReadMode) : Moves Tame (next skipBreaks mode) :=
  fun s => Extends.tame_of_blames (next_extends skipBreaks mode s) (next_blames skipBreaks mode s)

theorem discard_tame : Moves Tame discard := fun s => (discard_extends s).tame rfl

theorem rewind_tame (again : Bool) : Moves Tame (rewind again) :=
  fun s => (rewind_extends again s).tame rfl

theorem skipStatement_tame (mode : ReadMode) (stop : StopAt) :
    Moves Tame (skipStatement mode stop) :=
  fun s => (skipStatement_extends mode stop s).tame (skipStatement_reports mode stop s)

/-! ## What a good outcome comes from -/

/-- From every state, a value with the property comes of a good beginning, by way of reading that
goes on. -/
def Guards (P : Prop) (p : Parser α) (Q : α → Prop) : Prop :=
  ∀ s, Yields p s fun a t => Q a → P ∧ Tame s t

theorem Guards.pure {a : α} (h : Q a → P) : Guards P (pure a) Q :=
  fun s hq => ⟨h hq, .refl s⟩

theorem Guards.bind (hp : Guards P p Q) (hf : ∀ a, Guards (Q a) (f a) R) : Guards P (p >>= f) R :=
  fun s => Yields.bind (hp s) fun a t ht => (hf a t).mono fun _ _ hu hr =>
    ⟨(ht (hu hr).1).1, (ht (hu hr).1).2.trans (hu hr).2⟩

theorem Guards.after (hp : Moves Tame p) (hf : ∀ a, Guards P (f a) R) : Guards P (p >>= f) R :=
  fun s => Yields.bind (hp s) fun a t ht => (hf a t).mono fun _ _ hu hr =>
    ⟨(hu hr).1, ht.trans (hu hr).2⟩

theorem Guards.spoiled (hf : ∀ a, Guards False (f a) R) : Guards P (p >>= f) R :=
  fun _ => Yields.bind (P := fun _ _ => True) trivial fun a t _ =>
    (hf a t).mono fun _ _ hu hr => (hu hr).1.elim

theorem Guards.ite {c : Prop} [Decidable c] {q : Parser α} (hp : c → Guards P p Q)
    (hq : ¬c → Guards P q Q) : Guards P (if c then p else q) Q :=
  fun s => Yields.of_ite (fun h => hp h s) fun h => hq h s

theorem Guards.mono {P' : Prop} (hp : Guards P p Q) (h : P → P') : Guards P' p Q :=
  fun s => (hp s).mono fun _ _ ht hq => (ht hq).imp_left h

theorem Guards.keeping (hp : Guards True p Q) (P : Prop) : Guards P p fun a => P ∧ Q a :=
  fun s => (hp s).mono fun _ _ ht hq => ⟨hq.1, (ht hq.2).2⟩

theorem Guards.loop {step : α → Parser (Turn α)}
    (hstep : ∀ a, Guards (Q a) (step a) fun r => r.Meets Q Q) (a : α) :
    Guards (Q a) (loop step a) Q := by
  have hturns (n : Nat) (a : α) : Guards (Q a) (turns step n a) Q := by
    induction n generalizing a with
    | zero => exact .after (fun s => (exhaust_extends s).tame rfl) fun _ => .pure id
    | succ n ih =>
      refine (hstep a).bind fun r => ?_
      cases r with
      | again b => exact ih b
      | done b => exact .pure id
  exact .after (fun s => Tame.refl s) fun n => hturns n a

/-! ## Clauses -/

theorem expect_tame : Moves Tame (expect .rightParen) :=
  Moves.bind (next_tame _ _) fun _ => Moves.ite
    (Moves.bind (error_tame (by simp [passedOver])) fun _ => skipStatement_tame _ _) (Moves.pure _)

theorem priority_guards (c : ClauseWords) :
    Guards (c.invalid = false) (priority c) fun c => c.invalid = false := by
  refine .after discard_tame fun _ => .after (next_tame _ _) fun token => ?_
  split
  · exact .after expect_tame fun _ => .pure id
  · exact .spoiled fun _ => .spoiled fun _ => .spoiled fun _ => .pure Bool.noConfusion

theorem endOfClause_guards (c : ClauseWords) (kind : TokenKind) :
    Guards (c.invalid = false) (endOfClause c kind) fun c => c.invalid = false := by
  unfold endOfClause
  split
  · exact priority_guards c
  · exact .after (rewind_tame _) fun _ => .pure id
  · exact .after (rewind_tame _) fun _ => .pure id
  · exact .after (rewind_tame _) fun _ => .pure id
  · exact .pure id
  · refine .after (error_tame (by simp [passedOver])) fun _ => ?_
    exact .after (skipStatement_tame _ _) fun _ => .pure id

theorem addFixity_guards (c : ClauseWords) (g : Fixity) :
    Guards (c.invalid = false) (addFixity c g) fun c => c.invalid = false := by
  unfold addFixity
  split
  · exact .pure id
  · exact .spoiled fun _ => .pure Bool.noConfusion

theorem addProperty_guards (c : ClauseWords) (word : String) :
    Guards (c.invalid = false) (addProperty c word) fun c => c.invalid = false :=
  .ite (fun _ => .spoiled fun _ => .pure Bool.noConfusion) fun _ => .pure id

theorem clauseWord_guards (c : ClauseWords) :
    Guards (c.invalid = false) (clauseWord c) fun r =>
      r.Meets (fun c => c.invalid = false) fun c => c.invalid = false := by
  refine .after discard_tame fun _ => .after (next_tame _ _) fun token => ?_
  extract_lets word
  split
  · exact (addFixity_guards c _).bind fun _ => .pure id
  · refine .ite (fun _ => (addProperty_guards c _).bind fun _ => .pure id) fun _ =>
      .ite (fun _ => .after (rewind_tame _) fun _ => .pure id) fun _ =>
      .ite (fun _ => (endOfClause_guards c _).bind fun _ => .pure id) fun _ => ?_
    exact .after (error_tame (by simp [passedOver])) fun _ => .pure id

theorem clause_guards : Guards True clause fun found => found.isSome = true := by
  refine ((Guards.loop clauseWord_guards {}).mono fun _ => trivial).bind fun c =>
    .ite (fun _ => .pure Bool.noConfusion) fun hc => ?_
  split
  · exact .spoiled fun _ => .pure Bool.noConfusion
  · split
    · exact .spoiled fun _ => .pure Bool.noConfusion
    · exact .pure fun _ => eq_false_of_ne_true hc

theorem clauseTurn_guards (cs : Clauses) :
    Guards (cs.invalid = false) (clauseTurn cs) fun r =>
      r.Meets (fun cs => cs.invalid = false) fun cs => cs.invalid = false := by
  refine (clause_guards.keeping (cs.invalid = false)).bind fun found => ?_
  refine .after discard_tame fun _ => .after (next_tame _ _) fun token => ?_
  cases found with
  | none => exact .ite (fun _ => .pure Bool.noConfusion) fun _ => .pure Bool.noConfusion
  | some c => exact .ite (fun _ => .pure fun h => ⟨h, rfl⟩) fun _ => .pure fun h => ⟨h, rfl⟩

theorem readAlias_guards (token : Token) :
    Guards True (readAlias token) fun found => found.1 = true := by
  refine .ite (fun _ => .after (next_tame _ _) fun token => .ite (fun _ => .pure fun _ => trivial)
    fun _ => ?_) fun _ => .after (rewind_tame _) fun _ => .pure fun _ => trivial
  exact .spoiled fun _ => .spoiled fun _ => .pure Bool.noConfusion

/-! ## Statements -/

/-- What is read of an operator statement before anything is registered. -/
structure OperatorWords where
  name : String
  clauses : Clauses
  produced : Option String
  deriving DecidableEq, Repr

/-- Reads the name, `as`, the clauses and the alias. -/
def readOperator : Parser (Option OperatorWords) := do
  match ← definitionName .word with
  | none => return none
  | some name =>
    if (← next true .plainWord).statementWord ≠ "as" then
      error "Expected 'as'"
      skipStatement .unexpected statementEnd
      return none
    else
      let cs ← loop clauseTurn {}
      match cs.after with
      | none => return none
      | some after =>
        let (goesOn, produced) ← readAlias after
        if goesOn then return some ⟨name, cs, produced⟩ else return none

/-- Registers what has been read, unless a clause is invalid. -/
def makeOperator (keyword : Bool) (start : Nat) : Option OperatorWords → Parser Unit
  | none => return
  | some w => do
    if !w.clauses.invalid then registerClauses w.name keyword w.produced start w.clauses.valid
    expectEnd "Expected ',' or newline after operator statement"

theorem operatorStatement_eq (keyword : Bool) (start : Nat) :
    operatorStatement keyword start = readOperator >>= makeOperator keyword start := by
  unfold operatorStatement readOperator
  rw [bind_assoc]
  refine bind_congr fun name => ?_
  cases name with
  | none => rfl
  | some name =>
    simp only [bind_assoc]
    refine bind_congr fun token => ?_
    split
    · simp only [bind_assoc]
      rfl
    · simp only [bind_assoc]
      refine bind_congr fun cs => ?_
      cases cs.after with
      | none => rfl
      | some after =>
        simp only [bind_assoc]
        refine bind_congr fun found => ?_
        obtain ⟨goesOn, produced⟩ := found
        cases goesOn with
        | true => rfl
        | false => rfl

theorem definitionName_guards :
    Guards True (definitionName .word) fun name => name.isSome = true := by
  refine .after discard_tame fun _ => .after (next_tame _ _) fun token =>
    .ite (fun hname => ?_) fun _ => .pure fun _ => trivial
  refine .spoiled fun _ => .spoiled fun _ => .spoiled fun _ => .pure fun h => ?_
  simp only [Token.isLiteral, h] at hname
  exact Bool.noConfusion hname

/-- Clauses that are read to the end and all valid come of reading that goes on. -/
theorem readOperator_guards :
    Guards True readOperator fun found => ∃ w ∈ found, w.clauses.invalid = false := by
  refine definitionName_guards.bind fun name => ?_
  cases name with
  | none => exact .pure (by simp)
  | some name =>
    refine .after (next_tame _ _) fun token => .ite (fun _ => .spoiled fun _ => .spoiled fun _ =>
      .pure (by simp)) fun _ => ?_
    refine ((Guards.loop clauseTurn_guards {}).mono fun _ => rfl).bind fun cs => ?_
    split
    · exact .pure (by simp)
    · refine ((readAlias_guards _).keeping (cs.invalid = false)).bind fun found => ?_
      obtain ⟨goesOn, produced⟩ := found
      exact .ite (fun hgoes => .pure fun h => ⟨by simpa using h, hgoes⟩) fun _ => .pure (by simp)

theorem readOperator_extends : Moves Extends readOperator := by
  refine Moves.bind (extends_rules.definitionName _).moves fun name => ?_
  cases name with
  | none => exact Moves.pure _
  | some name =>
    refine Moves.bind (next_extends _ _) fun token => Moves.ite
      (Moves.bind (report_extends _) fun _ => Moves.bind
        (extends_rules.skipStatement _ _).moves fun _ => Moves.pure _) ?_
    refine Moves.bind (extends_rules.loop (I := fun _ => True)
      (fun cs _ => extends_rules.clauseTurn cs) trivial).moves fun cs => ?_
    split
    · exact Moves.pure _
    · refine Moves.bind (extends_rules.readAlias _).moves fun found => ?_
      obtain ⟨goesOn, produced⟩ := found
      exact Moves.ite (Moves.pure _) (Moves.pure _)

theorem makeOperator_extends (keyword : Bool) (start : Nat) {found : Option OperatorWords}
    (h : ¬∃ w ∈ found, w.clauses.invalid = false) :
    Moves Extends (makeOperator keyword start found) := by
  cases found with
  | none => exact Moves.pure _
  | some w =>
    refine fun s => Yields.of_ite (fun hvalid => ?_) fun _ => expectEnd_extends _ s
    exact absurd ⟨w, rfl, by simpa using hvalid⟩ h

/-- After an error that is not passed over, an operator statement only reads on. -/
theorem operatorStatement_extends (keyword : Bool) (start : Nat) (hs : s.tokenizer.reports = [])
    {found : Option OperatorWords} (hread : readOperator.run s = (found, t)) {r : Report}
    (hr : r ∈ t.reports.drop s.reports.length) (he : r.isError = true)
    (hpassed : r.isPassedOver = false) :
    Yields (operatorStatement keyword start) s fun _ u => Extends s u := by
  have hrejected : ¬∃ w ∈ found, w.clauses.invalid = false := by
    intro h
    have htame := readOperator_guards s
    rw [Yields, hread] at htame
    obtain ⟨rs, hrs, hrest⟩ := (htame h).2.reports hs
    rw [hrs, List.drop_left] at hr
    rw [hrest r hr he] at hpassed
    exact Bool.noConfusion hpassed
  have hgrown := readOperator_extends s
  rw [Yields, hread] at hgrown
  rw [operatorStatement_eq]
  refine Yields.bind (P := fun a u => (a, u) = (found, t)) hread fun a u h => ?_
  obtain ⟨rfl, rfl⟩ := Prod.mk.inj h
  exact (makeOperator_extends keyword start hrejected u).mono fun _ _ hu => hgrown.trans hu

/-- Between any two statements of a script, whatever its imports are answered with: if an operator
statement comes next and an error is reported while it is read, of the kinds that are not passed
over, then reading goes on after it, and neither what the script can use nor what it defines has
changed. -/
theorem rejected_operator_unregistered {σ : Type} (config : Config) (resolve : Resolver σ)
    (visible : Definition) (source : Source) (imports : σ) {s t u : ParserState} {i : σ}
    (h : Reached resolve (start config visible source) imports s i)
    {token : Token} (hfirst : firstWord.run s = (token, t))
    (hword : token.statementWord = "operator" ∨ token.statementWord = "keyword")
    {found : Option OperatorWords} (hread : readOperator.run t = (found, u)) {r : Report}
    (hr : r ∈ u.reports.drop t.reports.length) (he : r.isError = true)
    (hpassed : r.isPassedOver = false) :
    ∃ v, turn resolve s i = (.goesOn, v, i) ∧ v.visible = s.visible ∧ v.exported = s.exported := by
  have hwaiting : s.tokenizer.reports = [] := h.grows.waiting rfl
  have hstart : Extends s t := by
    have hnext := firstWord_extends s
    rwa [Yields, hfirst] at hnext
  obtain ⟨keyword, hdefines⟩ : ∃ keyword,
      (token.statementWord, operatorStatement keyword token.start) ∈ definers token.start := by
    rcases hword with hword | hword
    · exact ⟨false, by simp [definers, hword]⟩
    · exact ⟨true, by simp [definers, hword]⟩
  have hrest := operatorStatement_extends keyword token.start (hstart.waiting hwaiting) hread hr he
    hpassed
  have hall := hstart.trans hrest
  exact ⟨_, turn_defines resolve hfirst hdefines i, hall.visible, hall.exported⟩

/-- A fixity given twice. -/
theorem rejected_operator_unregistered_fixity :
    let resolve : Resolver Unit := fun _ i => (.answered none [], i)
    let s := start {} {} (Source.ofText "operator ~ as binary prefix")
    let first := firstWord.run s
    let read := readOperator.run first.2
    Reached resolve s () s () ∧ first.1.statementWord = "operator"
      ∧ (∃ r ∈ read.2.reports.drop first.2.reports.length,
        r.isError = true ∧ r.isPassedOver = false)
      ∧ read.1.isSome = true
      ∧ ∃ v, turn resolve s () = (.goesOn, v, ()) ∧ v.visible = s.visible
        ∧ v.exported = s.exported := by
  intro resolve s first read
  have hreached : Reached resolve s () s () := .start
  have hfirst : firstWord.run s = (first.1, first.2) := rfl
  have hread : readOperator.run first.2 = (read.1, read.2) := rfl
  have hword : first.1.statementWord = "operator" := by decide +kernel
  have herror : ∃ r ∈ read.2.reports.drop first.2.reports.length,
      r.isError = true ∧ r.isPassedOver = false := by decide +kernel
  refine ⟨hreached, hword, herror, by decide +kernel, ?_⟩
  obtain ⟨r, hr, he, hpassed⟩ := herror
  exact rejected_operator_unregistered {} resolve {} _ () hreached hfirst (.inl hword) hread hr he
    hpassed

/-- A comment that is not closed is an error, and the operator in front of it is registered. -/
theorem lexical_error_registers :
    let resolve : Resolver Unit := fun _ i => (.answered none [], i)
    let s := start {} {} (Source.ofText "operator + as binary /* never closed")
    let first := firstWord.run s
    let read := readOperator.run first.2
    let v := (turn resolve s ()).2.1
    first.1.statementWord = "operator"
      ∧ (∃ r ∈ read.2.reports.drop first.2.reports.length, r.isError = true)
      ∧ s.visible.operators.operators = [] ∧ v.visible.operators.operators.length = 1
      ∧ s.exported.operators.operators = [] ∧ v.exported.operators.operators.length = 1 := by
  intro resolve s first read v
  refine ⟨?_, ?_, rfl, ?_, rfl, ?_⟩
  all_goals decide +kernel

end Parser

end ConfigScript
