import ConfigScript.Proofs.Parser.GrowthValues
import ConfigScript.Proofs.Parser.Heedless
import ConfigScript.Proofs.Parser.RoundTrip
import ConfigScript.Proofs.Parser.StatementRules

/-! # Reading on after reports

While no macro and no operator is known, what is read after a defect is read as if there had been
none. A script that is one collection comes to this collection, with the reports made in it. -/

namespace ConfigScript

/-- What a report says, without the place it points at. -/
def Report.summary (r : Report) : Severity × String := (r.severity, r.message)

namespace Parser

open Scan

variable {α : Type} {config : Config} {root : List Node} {rs : List (Severity × String)}
  {s : ParserState} {mode : ReadMode} {text rest : List Char} {kind : TokenKind}
  {literal : Option String}

/-- No macro is defined, the parser does not skip, and the reports made so far say this. -/
structure Noted (config : Config) (root : List Node) (rs : List (Severity × String))
    (s : ParserState) : Prop where
  quiet : Quiet root { s with reports := [] }
  config_eq : s.config = config
  recovering : s.recovering = false
  reports : s.reports.map Report.summary = rs

theorem Noted.setTokenizer (h : Noted config root rs s) {t : Tokenizer} (ht : t.reports = []) :
    Noted config root rs { s with tokenizer := t } :=
  ⟨h.quiet.setTokenizer ht, h.config_eq, h.recovering, h.reports⟩

theorem Noted.discard (h : Noted config root rs s) :
    Noted config root rs { s with tokenizer := s.tokenizer.discard } :=
  h.setTokenizer h.quiet.queued

theorem Noted.rewind (h : Noted config root rs s) (again : Bool) :
    Noted config root rs
      { s with tokenizer := if again then s.tokenizer.reread else s.tokenizer.replay } := by
  refine h.setTokenizer ?_
  cases again with
  | true => exact h.quiet.queued
  | false => exact h.quiet.queued

/-- What a reader comes to where nothing has been reported, it comes to after reports too. -/
theorem Noted.yields {p : Parser α} {P : α → Prop} {Q : α → Tokenizer → Prop}
    (hs : Noted config root rs s) (hp : Heedless α p P) (hx : Moves Extends p)
    (h : ∀ t, Quiet root t → t.tokenizer = s.tokenizer →
      Yields p t fun a u => Q a u.tokenizer ∧ Quiet root u) :
    Yields p s fun a t => Q a t.tokenizer ∧ Noted config root rs t := by
  have hbefore : ParserState.reporting s.reports { s with reports := [] } = s := by
    simp [ParserState.reporting]
  have hread := hp.yields (h { s with reports := [] } hs.quiet rfl) s.reports
  rw [hbefore] at hread
  refine (hread.and (hx s)).mono fun a t ht => ?_
  obtain ⟨⟨u, rfl, hq, hu⟩, hext⟩ := ht
  have hreports : u.reports = [] := hu.reports
  have hsame : { u.reporting s.reports with reports := [] } = u := by
    rw [← hreports]
    rfl
  refine ⟨hq, ?_, hext.config.trans hs.config_eq, hext.recovering.trans hs.recovering, ?_⟩
  · rwa [hsame]
  · rw [ParserState.reporting, hreports, List.append_nil]
    exact hs.reports

/-! ## Steps -/

theorem next_hands (hq : Quiet root s) (hp : s.tokenizer.Poised mode text)
    (hl : Lexes mode text kind literal rest) {skipBreaks : Bool}
    (hb : skipBreaks = true → kind ≠ .lineBreak) :
    Yields (next skipBreaks mode) s fun token t =>
      (∃ start, token = ⟨kind, start, literal⟩ ∧ s.tokenizer.Hands text token rest t.tokenizer)
        ∧ Quiet root t := by
  rw [← bind_pure (next skipBreaks mode)]
  exact Yields.next_hand hq hp hl hb fun start t hqt ht => ⟨⟨start, rfl, ht⟩, hqt⟩

theorem Noted.next (hs : Noted config root rs s) (hp : s.tokenizer.Poised mode text)
    (hl : Lexes mode text kind literal rest) {skipBreaks : Bool}
    (hb : skipBreaks = true → kind ≠ .lineBreak) :
    Yields (next skipBreaks mode) s fun token t =>
      (∃ start, token = ⟨kind, start, literal⟩ ∧ s.tokenizer.Hands text token rest t.tokenizer)
        ∧ Noted config root rs t := by
  refine hs.yields (Q := fun token t => ∃ start, token = ⟨kind, start, literal⟩
    ∧ s.tokenizer.Hands text token rest t) (next_heedless _ _) (next_extends _ _)
    fun t hq ht => ?_
  rw [← ht] at hp ⊢
  exact next_hands hq hp hl hb

theorem Noted.discard_next {β : Type} {f : Token → Parser β} {Q : β → ParserState → Prop}
    {skipBreaks : Bool} (hs : Noted config root rs s) (hp : s.tokenizer.Poised mode text)
    (hl : Lexes mode text kind literal rest) (hb : skipBreaks = true → kind ≠ .lineBreak)
    (hf : ∀ start t, Noted config root rs t → t.tokenizer.Holds text ⟨kind, start, literal⟩ rest →
      Yields (f ⟨kind, start, literal⟩) t Q) :
    Yields (Parser.discard >>= fun _ => Parser.next skipBreaks mode >>= f) s Q := by
  refine Yields.modify_bind (Yields.bind (hs.discard.next hp.discard hl hb) fun token t ht => ?_)
  obtain ⟨⟨start, rfl, hands⟩, hst⟩ := ht
  exact hf start t hst (hands.holds rfl)

theorem Noted.report (hs : Noted config root rs s) (r : Report) :
    Yields (report r) s fun _ t =>
      Noted config root (rs ++ [r.summary]) t ∧ t.tokenizer = s.tokenizer := by
  refine Yields.of_modify ?_
  rw [if_neg (by simp [hs.recovering])]
  refine ⟨⟨hs.quiet, hs.config_eq, hs.recovering, ?_⟩, rfl⟩
  rw [List.map_append, hs.reports]
  rfl

theorem Noted.error (hs : Noted config root rs s) (message : String) :
    Yields (error message) s fun _ t =>
      Noted config root (rs ++ [(.error, message)]) t ∧ t.tokenizer = s.tokenizer :=
  hs.report _

theorem Noted.substitute (hs : Noted config root rs s) :
    Yields substitute s fun m t =>
      m = Node.errorValue ∧ Noted config root rs t ∧ t.tokenizer = s.tokenizer :=
  ⟨rfl, ⟨⟨hs.quiet.visible, hs.quiet.template, rfl, hs.quiet.queued, hs.quiet.exhausted,
    hs.quiet.root⟩, hs.config_eq, hs.recovering, hs.reports⟩, rfl⟩

/-! ## Scripts of one collection -/

theorem Noted.push (hs : Noted config root rs s) (m : Node) :
    Noted config (root ++ [m]) rs { s with root := s.root ++ [m] } :=
  ⟨hs.quiet.push m, hs.config_eq, hs.recovering, hs.reports⟩

theorem pushValue_noted (hs : Noted config root rs s) (hr : s.tokenizer.Rests []) (m : Node) :
    Yields (pushValue m) s fun _ t =>
      Noted config (root ++ [m]) rs t ∧ t.tokenizer.Rests [] := by
  have hend : Yields endStatement { s with root := s.root ++ [m] } fun _ t =>
      t.tokenizer.Rests [] ∧ Noted config (root ++ [m]) rs t := by
    refine (hs.push m).yields (Q := fun _ t => t.Rests []) heedless_rules.endStatement
      extends_rules.endStatement.moves fun t hq ht => ?_
    have hrt : t.tokenizer.Rests [] := ht ▸ hr
    exact (endStatement_last hq hrt).mono fun _ u hu => hu.symm
  exact Yields.modify_bind (Yields.bind hend fun _ _ ht => ht.symm)

theorem statement_collection {word : String} {after : List Char} {rs' : List (Severity × String)}
    {Q : Node → Prop} (hs : Noted config root rs s) (hr : s.tokenizer.Rests text)
    (hl : Lexes .plainWord text kind literal after) (hf : First word text kind literal after)
    (hw : word ∉ statementWords)
    (htop : ∀ t, Noted config root rs t → t.tokenizer.Poised .value text →
      t.tokenizer.committed.rest = text → Yields topCollection t fun v u =>
        ∃ m, v = some m ∧ Q m ∧ Noted config root rs' u ∧ u.tokenizer.Rests []) :
    Yields statement s fun r t => r = .complete
      ∧ ∃ m, Q m ∧ Noted config (root ++ [m]) rs' t ∧ t.tokenizer.Rests [] := by
  rw [statement_eq]
  refine hs.discard_next (hr.poised .plainWord) hl (fun _ => hf.kind_ne rfl rfl)
    fun start t hst ht => ?_
  rw [statementFrom_value (hf.kind_ne rfl rfl) (statementWord_not_mem hw hf start)]
  have hback : Yields (Parser.rewind (Token.isSimpleLiteral ⟨kind, start, literal⟩)) t fun _ u =>
      (u.tokenizer.Poised .value text ∧ u.tokenizer.committed.rest = text)
        ∧ Noted config root rs u := by
    refine hst.yields (Q := fun _ u => u.Poised .value text ∧ u.committed.rest = text)
      (heedless_rules.rewind _) (rewind_extends _) fun u hq hu => ?_
    have hold : u.tokenizer.Holds text ⟨kind, start, literal⟩ after := hu ▸ ht
    exact (rewind_first hf hq hold).mono fun _ v hv => ⟨hv.2, hv.1⟩
  refine Yields.bind (Yields.bind hback fun _ u hu => ?_) (P := fun _ u =>
    ∃ m, Q m ∧ Noted config (root ++ [m]) rs' u ∧ u.tokenizer.Rests []) fun _ u hu => ⟨rfl, hu⟩
  refine Yields.bind (htop u hu.2 hu.1.1 hu.1.2) fun v w hw => ?_
  obtain ⟨m, rfl, hm, hnoted, hrests⟩ := hw
  exact (pushValue_noted hnoted hrests m).mono fun _ x hx => ⟨m, hm, hx⟩

theorem statement_last_noted (hs : Noted config root rs s) (hr : s.tokenizer.Rests []) :
    Yields statement s fun r t => r = .endOfFile ∧ Noted config root rs t := by
  refine hs.discard_next (hr.poised .plainWord) (lexes_end _) (by simp) fun start t hst _ => ?_
  exact Yields.of_ite (fun _ => ⟨rfl, hst⟩) fun h => absurd rfl h

variable {σ : Type}

theorem start_noted (config : Config) (source : Source) :
    Noted config [] [] (start config {} source) :=
  ⟨start_quiet config source, rfl, rfl, rfl⟩

/-- A script of one statement that is a value comes to this value. -/
theorem compile_single (resolve : Resolver σ) (imports : σ) {source : Source} {Q : Node → Prop}
    (h : Yields statement (start config {} source) fun r t => r = .complete
      ∧ ∃ m, Q m ∧ Noted config [m] rs t ∧ t.tokenizer.Rests []) :
    let c := (compile config resolve {} source imports).1
    ∃ m, c.root = [m] ∧ Q m ∧ c.reports.map Report.summary = rs := by
  obtain ⟨hcomplete, m, hm, hs, hr⟩ := h
  obtain ⟨hlast, hend⟩ := statement_last_noted hs hr
  have hrun : statements resolve (source.length + 2) (start config {} source) imports
      = (true, (statement.run (statement.run (start config {} source)).2).2, imports) :=
    statements_single hcomplete hlast _ _
  have hexhausted :
      (statement.run (statement.run (start config {} source)).2).2.exhausted = false :=
    hend.quiet.exhausted
  intro c
  have hc : c = (compile config resolve {} source imports).1 := rfl
  rw [compile_eq hrun, hexhausted] at hc
  exact ⟨m, hc ▸ hend.quiet.root, hm, hc ▸ hend.reports⟩

end Parser

end ConfigScript
