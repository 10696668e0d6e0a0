import ConfigScript.Proofs.Parser.MirrorsValues
import ConfigScript.Proofs.Parser.OperationProgress
import ConfigScript.Proofs.Parser.RoundTrip
import ConfigScript.Proofs.Parser.Termination

/-! # Looking at the first token of a value

A reader may look at the first token of a value in another mode than that of values before the
value is read. Where this token is the same in both modes, or its text is read again, the value is
read as if nobody had looked. -/

namespace ConfigScript

open Scan

/-! ## Tokens in two modes -/

namespace Scan

variable {policy : UnicodePolicy} {mode : ReadMode} {operators : OperatorTable}

/-- With structure alone expected, a token is no literal: it is a word of any kind, a colon, or the
sign that stands there for values too. -/
theorem next_unexpected_cases (policy : UnicodePolicy) (operators : OperatorTable) (c : Cursor) :
    (next policy .unexpected operators c).token.isLiteral = false
      ∧ ((next policy .unexpected operators c).token.kind = .unexpected
        ∨ (next policy .unexpected operators c).token.kind = .colon
        ∨ next policy .value operators c = next policy .unexpected operators c) := by
  simp only [next]
  generalize (skipBlank c.pos c.rest).1 = d
  obtain ⟨pos, _ | ⟨ch, cs⟩⟩ := d
  · exact ⟨rfl, .inr (.inr rfl)⟩
  · rw [lexeme_cons, lexeme_cons]
    cases hs : sign? .unexpected ch with
    | none =>
      simp only [ofQuoted, ofWord, if_true]
      split
      · exact ⟨rfl, .inl rfl⟩
      · exact ⟨rfl, .inl rfl⟩
    | some kind =>
      refine ⟨rfl, .inr ?_⟩
      by_cases hk : kind = .colon
      · exact .inl hk
      · have hv : sign? .value ch = some kind := by
          unfold sign? at hs ⊢
          split at hs <;> simp_all
        simp only [hv]
        exact .inr trivial

theorem next_value_of_colon {c : Cursor}
    (h : (next policy .unexpected operators c).token.kind = .colon) :
    (next policy .value operators c).token.isLiteral = true
      ∧ (next policy .value operators c).token.kind.isSign = false := by
  simp only [next] at h ⊢
  generalize (skipBlank c.pos c.rest).1 = d at h ⊢
  obtain ⟨pos, _ | ⟨ch, cs⟩⟩ := d
  · simp [lexeme, Token.sign] at h
  · rw [lexeme_cons] at h ⊢
    cases hs : sign? .unexpected ch with
    | none =>
      simp only [hs, ofQuoted, ofWord, if_true] at h
      split at h
      · simp [Token.sign] at h
      · simp [Token.sign] at h
    | some kind =>
      simp only [hs, Token.sign] at h
      subst h
      have hch : ch = ':' := by
        unfold sign? at hs
        split at hs <;> simp_all
      subst hch
      have hv : sign? .value ':' = none := rfl
      have hq : (':' == '"' || ':' == '\'') = false := rfl
      simp only [hv, hq, ofWord, Bool.false_eq_true, reduceCtorEq, if_false]
      have hkind (escaped : Bool) : (wordKind escaped .value).isSign = false := isSign_wordKind _
      simp only [Token.ofLiteral, hkind]
      exact ⟨rfl, trivial⟩

theorem next_rightBrace {c : Cursor} (mode : ReadMode)
    (h : (next policy .key operators c).token.kind = .rightBrace) :
    next policy mode operators c = next policy .key operators c := by
  simp only [next] at h ⊢
  generalize (skipBlank c.pos c.rest).1 = d at h ⊢
  obtain ⟨pos, _ | ⟨ch, cs⟩⟩ := d
  · rfl
  · rw [lexeme_cons] at h
    rw [lexeme_cons, lexeme_cons]
    cases hs : sign? .key ch with
    | none =>
      simp only [hs, ofQuoted, ofWord, reduceCtorEq, if_false] at h
      split at h
      · exact absurd h (by simp [Token.ofLiteral])
      · have hword : (wordKind (word policy (rulesOf .key) none [] pos (ch :: cs)).escaped
            .key).isSign = false := isSign_wordKind _
        exact absurd h (TokenKind.ne_of_isSign hword rfl)
    | some kind =>
      simp only [hs, Token.sign] at h
      subst h
      have hch : ch = '}' := by
        unfold sign? at hs
        split at hs <;> simp_all
      subst hch
      rfl

theorem next_sign {ch : Char} {kind : TokenKind} (h : sign? mode ch = some kind)
    (policy : UnicodePolicy) (operators : OperatorTable) (pos : Nat) (cs : List Char) :
    next policy mode operators ⟨pos, ch :: cs⟩ = ⟨.sign kind pos, ⟨pos + 1, cs⟩, []⟩ := by
  rw [next_solid (solid_of_sign? h), lexeme_cons, h]

end Scan

namespace Tokenizer

variable {t u : Tokenizer} {mode : ReadMode} {operators : OperatorTable} {e : Token × Cursor}
  {skipBreaks : Bool}

theorem next_read (skipBreaks : Bool) (hahead : t.ahead = [])
    (hreports : (Scan.next t.policy mode operators t.cursor).reports = [])
    (hline : skipBreaks = true →
      (Scan.next t.policy mode operators t.cursor).token.kind ≠ .lineBreak) :
    t.next skipBreaks mode operators = ((Scan.next t.policy mode operators t.cursor).token,
      { t with
        taken := t.taken ++ [((Scan.next t.policy mode operators t.cursor).token, t.cursor)]
        cursor := (Scan.next t.policy mode operators t.cursor).after
        lastStart := (Scan.next t.policy mode operators t.cursor).token.start }) := by
  have hadvance : t.advance mode operators = ((Scan.next t.policy mode operators t.cursor).token,
      { t with
        taken := t.taken ++ [((Scan.next t.policy mode operators t.cursor).token, t.cursor)]
        cursor := (Scan.next t.policy mode operators t.cursor).after }) := by
    have hqueue : t.queue [] = t := rfl
    unfold Tokenizer.advance
    simp only [hahead, hreports, hqueue]
  rw [next_eq_advance (by rwa [hadvance]), hadvance]

theorem next_kept (hahead : t.ahead = [e]) (hline : e.1.kind ≠ .lineBreak) :
    t.next true mode operators
      = (e.1, { t with taken := t.taken ++ [e], ahead := [], lastStart := e.1.start }) := by
  have hadvance : t.advance mode operators
      = (e.1, { t with taken := t.taken ++ [e], ahead := [] }) := by
    unfold Tokenizer.advance
    simp only [hahead]
  rw [next_eq_advance (fun _ => by rwa [hadvance]), hadvance]

theorem read_silent (skipBreaks : Bool) (hahead : t.ahead = []) (hreported : t.reported = [])
    (hline : skipBreaks = true →
      (Scan.next t.policy mode operators t.cursor).token.kind ≠ .lineBreak)
    (h : (t.next skipBreaks mode operators).2.reports = []) :
    (Scan.next t.policy mode operators t.cursor).reports = [] := by
  have hadvance : t.advance mode operators = ((Scan.next t.policy mode operators t.cursor).token,
      { t.queue (Scan.next t.policy mode operators t.cursor).reports with
        taken := t.taken ++ [((Scan.next t.policy mode operators t.cursor).token, t.cursor)]
        cursor := (Scan.next t.policy mode operators t.cursor).after }) := by
    unfold Tokenizer.advance
    simp only [hahead]
  rw [next_eq_advance (by rwa [hadvance]), hadvance] at h
  exact queue_silent hreported h

/-- Both tokenizers go back to the same place of the text, and have nothing different to report. -/
structure StaysAt (t u : Tokenizer) : Prop where
  policy : u.policy = t.policy
  reports : u.reports = t.reports
  reported : u.reported = t.reported
  committed : u.committed = t.committed

theorem StaysAt.replay (h : t.StaysAt u) : t.StaysAt u.replay :=
  ⟨h.policy, h.reports, h.reported, (committed_replay u).trans h.committed⟩

theorem StaysAt.reread (h : t.StaysAt u) : t.StaysAt u.reread :=
  ⟨h.policy, h.reports, h.reported, (committed_reread u).trans h.committed⟩

theorem StaysAt.trans {v : Tokenizer} (h : t.StaysAt u) (g : u.StaysAt v) : t.StaysAt v :=
  ⟨g.policy.trans h.policy, g.reports.trans h.reports, g.reported.trans h.reported,
    g.committed.trans h.committed⟩

theorem StaysAt.reread_eq (h : t.StaysAt u) (htaken : t.taken = []) (hahead : t.ahead = []) :
    u.reread = { t with lastStart := u.lastStart } := by
  have hcursor : u.committed = t.cursor := by
    rw [h.committed, Tokenizer.committed, htaken, hahead]
    rfl
  rw [Tokenizer.reread, hcursor, h.policy, h.reports, h.reported, htaken, hahead]

theorem read_staysAt (skipBreaks : Bool) (hahead : t.ahead = [])
    (hreports : (Scan.next t.policy mode operators t.cursor).reports = [])
    (hline : skipBreaks = true →
      (Scan.next t.policy mode operators t.cursor).token.kind ≠ .lineBreak) :
    t.StaysAt (t.next skipBreaks mode operators).2 := by
  rw [next_read skipBreaks hahead hreports hline]
  refine ⟨rfl, rfl, rfl, ?_⟩
  rw [committed_eq, committed_eq, firstPlace_append, here, here, hahead]
  rfl

theorem kept_staysAt (mode : ReadMode) (operators : OperatorTable) (hahead : t.ahead = [e])
    (hline : e.1.kind ≠ .lineBreak) :
    t.StaysAt (t.next true mode operators).2 := by
  rw [next_kept hahead hline]
  refine ⟨rfl, rfl, rfl, ?_⟩
  rw [committed_eq, committed_eq, firstPlace_append, here, here, hahead]
  rfl

/-- A token that stands there for values too is handed out again as the first token of a value. -/
theorem next_replay (skipBreaks : Bool) (mode : ReadMode) (operators : OperatorTable)
    (htaken : t.taken = []) (hahead : t.ahead = [])
    (hsame : Scan.next t.policy .value operators t.cursor
      = Scan.next t.policy mode operators t.cursor)
    (hreports : (Scan.next t.policy mode operators t.cursor).reports = [])
    (hline : (Scan.next t.policy mode operators t.cursor).token.kind ≠ .lineBreak) :
    (t.next skipBreaks mode operators).2.replay.discard.next true .value operators
      = t.discard.next true .value operators := by
  have hdiscard : t.discard = t := by rw [Tokenizer.discard, ← htaken]
  rw [next_read skipBreaks hahead hreports fun _ => hline, hdiscard,
    next_read true hahead (hsame ▸ hreports) fun _ => hsame ▸ hline, hsame]
  simp only [replay, Tokenizer.discard, htaken, hahead, List.nil_append, List.append_nil]
  rw [next_kept rfl hline]
  rfl

/-- A text that is read again is read as if nobody had looked at it. -/
theorem next_reread (skipBreaks : Bool) (mode : ReadMode) (operators : OperatorTable)
    (htaken : t.taken = []) (hahead : t.ahead = [])
    (hreports : (Scan.next t.policy mode operators t.cursor).reports = [])
    (hline : (Scan.next t.policy mode operators t.cursor).token.kind ≠ .lineBreak)
    (hvalue : (Scan.next t.policy .value operators t.cursor).reports = [])
    (hline' : (Scan.next t.policy .value operators t.cursor).token.kind ≠ .lineBreak) :
    (t.next skipBreaks mode operators).2.reread.discard.next true .value operators
      = t.discard.next true .value operators := by
  have hdiscard : t.discard = t := by rw [Tokenizer.discard, ← htaken]
  rw [next_read skipBreaks hahead hreports fun _ => hline, hdiscard,
    next_read true hahead hvalue fun _ => hline']
  simp only [reread, committed, Tokenizer.discard, htaken, hahead, List.nil_append, List.append_nil]
  refine Eq.trans (next_read true rfl ?_ ?_) rfl
  · exact hvalue
  · exact fun _ => hline'

/-- Where a key is expected and the brace that closes the object is all that is left, the bracket
that closes the list comes next. -/
theorem Twins.closes (h : t.Twins u) (hreports : (t.next true .key {}).2.reports = [])
    (hbrace : (t.next true .key {}).1.kind = .rightBrace)
    (hn : (t.next true .key {}).2.here.rest = []) :
    (u.discard.next true .unexpected {}).1.kind = .rightBracket
      ∧ (u.discard.next true .unexpected {}).2.Over
      ∧ (u.discard.next true .unexpected {}).2.reports = [] := by
  have hlook : (t.discard.next true .unexpected {}).1.kind = .rightBrace
      ∧ (t.discard.next true .unexpected {}).2.here.rest = []
      ∧ (t.discard.next true .unexpected {}).2.reports = [] := by
    rw [next_eq_advance fun _ => h.inLine .key] at hreports hbrace hn
    rw [next_eq_advance fun _ => h.discard.inLine .unexpected]
    unfold Tokenizer.advance at hreports hbrace hn ⊢
    cases ht : t.ahead with
    | cons e es =>
      simp only [ht] at hreports hbrace hn
      simp only [Tokenizer.discard, ht]
      exact ⟨hbrace, hn, hreports⟩
    | nil =>
      simp only [ht] at hreports hbrace hn
      have hsilent := queue_silent h.silent.2 hreports
      simp only [queue_kept, ht, hsilent] at hn
      simp only [Tokenizer.discard, queue_kept, ht, next_rightBrace .unexpected hbrace, hsilent]
      exact ⟨hbrace, hn, h.silent.1⟩
  obtain ⟨hkind, hrest, hsilent⟩ := hlook
  rcases h.discard.next true .unexpected hsilent with ⟨htwins, ⟨place, -, htoken⟩, -⟩ | hkey
  · refine ⟨?_, (htwins.isOver hrest).2, htwins.silent'.1⟩
    cases htoken with
    | alike kind literal ended =>
      rcases ended hrest with he | he
      · exact absurd (hkind.symm.trans he) (by decide)
      · exact absurd (hkind.symm.trans he) (by decide)
    | spoilt kind literal word => exact absurd hkind (TokenKind.ne_of_isSign word rfl)
    | closers kinds => exact kinds.2
  · exact absurd hkey.1 (by decide)

end Tokenizer

namespace Parser

variable {α : Type} {s : ParserState} {t u : Tokenizer} {a b : Token} {skipBreaks : Bool}
  {mode : ReadMode}

/-! ## Steps with what they come to -/

theorem next_run (h : s.tokenizer.next skipBreaks mode s.visible.operators = (a, t))
    (hr : t.reports = []) : (next skipBreaks mode).run s = (a, { s with tokenizer := t }) := by
  have hread : Yields (next skipBreaks mode) s
      fun b v => b = a ∧ v = { s with tokenizer := t } := by
    refine Yields.get_bind ?_
    rw [h]
    refine Yields.set_bind (Yields.bind (addReports_nil hr) fun _ v hv => Yields.of_pure ⟨rfl, ?_⟩)
    have ht : { t with reports := [] } = t := by rw [← hr]
    exact hv.trans (congrArg (fun x => { s with tokenizer := x }) ht)
  exact Prod.ext hread.1 hread.2

theorem next_congr (h : u.next skipBreaks mode s.visible.operators
      = s.tokenizer.next skipBreaks mode s.visible.operators) :
    (next skipBreaks mode).run { s with tokenizer := u } = (next skipBreaks mode).run s := by
  have hread (t : Tokenizer) : (next skipBreaks mode).run { s with tokenizer := t } =
      ((addReports (t.next skipBreaks mode s.visible.operators).2.takeReports.1 >>= fun _ =>
        pure (t.next skipBreaks mode s.visible.operators).1).run
        { s with tokenizer := (t.next skipBreaks mode s.visible.operators).2.takeReports.2 }) := rfl
  have hsame : s = { s with tokenizer := s.tokenizer } := rfl
  rw [hsame, hread, hread, h]

/-! ## Collections -/

variable {depth : Nat}

theorem collection_congr (depth : Nat) (s : ParserState)
    (h : u.discard.next true .value s.visible.operators
      = s.tokenizer.discard.next true .value s.visible.operators) :
    (collection (depth + 1) false).run { s with tokenizer := u }
      = (collection (depth + 1) false).run s := by
  have hsplit (v : ParserState) : (collection (depth + 1) false).run v
      = (collectionFrom depth false
          ((next true .value).run { v with tokenizer := v.tokenizer.discard }).1).run
        ((next true .value).run { v with tokenizer := v.tokenizer.discard }).2 := rfl
  rw [hsplit, hsplit, next_congr (s := { s with tokenizer := s.tokenizer.discard }) h]

theorem collection_reported (depth : Nat) (hs : s.recovering = false) :
    Yields (collection (depth + 1) false) s fun _ v => v.reports = [] →
      (s.tokenizer.discard.next true .value s.visible.operators).2.reports = [] := by
  rw [collection_succ]
  refine Yields.modify_bind (Yields.bind
    (next_reported (s := { s with tokenizer := s.tokenizer.discard }) hs true .value)
    fun a v hv => ?_)
  have hmoves : Moves Extends (collectionFrom depth false a) :=
    (collectionFrom_mirrors (fun _ => collection_mirrors depth depth _) false rfl rfl).left
  exact (hmoves v).mono fun _ w hw hr => hv (List.prefix_nil.mp (hr ▸ hw.reports))

theorem collection_gives_back (depth : Nat)
    (h : s.tokenizer.discard.next true .value s.visible.operators = (a, t)) (hr : t.reports = [])
    (hl : a.isLiteral = false) (ho : isOpening a.kind = false) :
    (collection (depth + 1) false).run s = (none, { s with tokenizer := t.replay }) := by
  have hnext := next_run (s := { s with tokenizer := s.tokenizer.discard }) h hr
  have hback : Yields (collection (depth + 1) false) s fun found v =>
      found = none ∧ v = { s with tokenizer := t.replay } := by
    rw [collection_succ]
    refine Yields.modify_bind (Yields.bind_run fun b v hrun => ?_)
    obtain ⟨rfl, rfl⟩ := Prod.mk.inj (hnext.symm.trans hrun)
    rw [collectionFrom_back ho hl]
    exact Yields.modify_bind (Yields.of_pure ⟨rfl, rfl⟩)
  exact Prod.ext hback.1 hback.2

theorem Quiet.extends {v : ParserState} (hq : Quiet [] s) (h : Extends s v) (hr : v.reports = [])
    (hx : v.exhausted = false) : Quiet [] v :=
  ⟨h.visible.trans hq.visible, h.template hq.template, hr, h.waiting hq.queued, hx,
    h.root.trans hq.root⟩

theorem named_composite {r : ParserState} {p : Parser Node} (hp : Moves Extends p)
    (hq : Quiet [] r) (hs : Extends r s) (h : Yields p s fun n _ => n.isPrimitive = false)
    (kind : MacroKind) :
    Yields (p >>= namedValue a kind) s fun found v => v.reports = [] → v.exhausted = false →
      ∃ m, found = some m ∧ m.isPrimitive = false := by
  refine Yields.bind ((hp s).and h) fun n v hv => Yields.by_run fun found w hrun hr hx => ?_
  have hext : Extends v w := (namedValue_extends a kind n v).of_run hrun
  have hreports : v.reports = [] := List.prefix_nil.mp (hr ▸ hext.reports)
  have hcomplete : v.exhausted = false :=
    Bool.eq_false_iff.mpr fun he => Bool.false_ne_true (hx.symm.trans (hext.exhausted he))
  have hnamed :=
    (namedValue_quiet (hq.extends (hs.trans hv.1) hreports hcomplete) a kind n).of_run hrun
  exact ⟨n, hnamed.1, hv.2⟩

theorem collection_word (depth : Nat) (hq : Quiet [] s) (hrec : s.recovering = false)
    (h : s.tokenizer.discard.next true .value s.visible.operators = (a, t)) (hr : t.reports = [])
    (hl : a.isLiteral = true) (hw : a.kind.isSign = false) :
    Yields (collection (depth + 1) false) s fun found v => v.reports = [] → v.exhausted = false →
      (∃ m, found = some m ∧ m.isPrimitive = false)
        ∨ found = none ∧ (t.next false .unexpected s.visible.operators).2.reports = []
          ∧ v = { s with
            tokenizer := (t.next false .unexpected s.visible.operators).2.reread } := by
  have hinner (inOperation : Bool) := collection_mirrors depth depth inOperation
  have hnext := next_run (s := { s with tokenizer := s.tokenizer.discard }) h hr
  have hqt : Quiet [] { s with tokenizer := t } := hq.setTokenizer hr
  have hname : Yields (behindName depth false a) { s with tokenizer := t } fun found v =>
      v.reports = [] → v.exhausted = false → (∃ m, found = some m ∧ m.isPrimitive = false)
        ∨ found = none ∧ (t.next false .unexpected s.visible.operators).2.reports = []
          ∧ v = { s with
            tokenizer := (t.next false .unexpected s.visible.operators).2.reread } := by
    unfold behindName
    refine Yields.bind_run fun b v hrun => ?_
    have hext : Extends { s with tokenizer := t } v := (next_extends _ _ _).of_run hrun
    obtain ⟨kind, start, literal⟩ := b
    cases kind with
    | leftBrace =>
      have hobject := object_mirrors (hinner false) a.text a.start a.start
      exact (named_composite hobject.left hqt hext (Yields.bind_run fun _ _ _ => rfl) .object).mono
        fun _ _ hv hr hx => .inl (hv hr hx)
    | leftBracket =>
      have hlist := list_mirrors (hinner false) (expr_bracket depth) a.text a.start a.start
      exact (named_composite hlist.left hqt hext (Yields.bind_run fun _ _ _ => rfl) .list).mono
        fun _ _ hv hr hx => .inl (hv hr hx)
    | leftParen =>
      have hoperation := operation_mirrors (hinner false).left (hinner false).left (hinner true)
        a.text a.start a.start
      exact (named_composite hoperation.left hqt hext (Yields.bind_run fun _ _ _ => rfl)
        .operation).mono fun _ _ hv hr hx => .inl (hv hr hx)
    | _ =>
      -- No bracket follows, so the name is given back to be read as a literal.
      refine Yields.modify_bind (Yields.of_pure fun hr _ => .inr ⟨rfl, ?_⟩)
      have hsilent := (next_reported (s := { s with tokenizer := t }) hrec false .unexpected).of_run
        hrun hr
      have hgo := next_run (s := { s with tokenizer := t }) (Prod.eta _).symm hsilent
      obtain ⟨-, rfl⟩ := Prod.mk.inj (hgo.symm.trans hrun)
      exact ⟨hsilent, rfl⟩
  rw [collection_succ]
  refine Yields.modify_bind (Yields.bind_run fun b v hrun => ?_)
  obtain ⟨rfl, rfl⟩ := Prod.mk.inj (hnext.symm.trans hrun)
  rw [collectionFrom_word hw hl]
  exact hname

/-! ## Scripts of one collection -/

/-- The whole text has been read, with these values and reports. -/
structure Settled (root : List Node) (rs : List Report) (s : ParserState) : Prop where
  root : s.root = root
  reports : s.reports = rs
  complete : s.exhausted = false
  isOver : s.tokenizer.Over
  queued : s.tokenizer.reports = []

variable {root : List Node} {rs : List Report}

theorem Settled.discard (h : Settled root rs s) :
    Settled root rs { s with tokenizer := s.tokenizer.discard } :=
  ⟨h.root, h.reports, h.complete, h.isOver.discard, h.queued⟩

theorem Settled.next (h : Settled root rs s) (skipBreaks : Bool) (mode : ReadMode) :
    Yields (Parser.next skipBreaks mode) s fun a v => a.kind = .endOfFile ∧ Settled root rs v := by
  obtain ⟨hkind, hover, hreports⟩ := h.isOver.next skipBreaks mode s.visible.operators
  have hqueued := hreports.trans h.queued
  have hrun := next_run (s := s) (Prod.eta _).symm hqueued
  rw [Yields, hrun]
  exact ⟨hkind, h.root, h.reports, h.complete, hover, hqueued⟩

theorem pushValue_settled (h : Settled root rs s) (m : Node) :
    Yields (pushValue m) s fun _ v => Settled (root ++ [m]) rs v := by
  have hpush : Settled (root ++ [m]) rs { s with root := s.root ++ [m] } :=
    ⟨by rw [h.root], h.reports, h.complete, h.isOver, h.queued⟩
  refine Yields.modify_bind (Yields.bind (P := fun _ => Settled (root ++ [m]) rs) ?_ fun _ _ => id)
  refine Yields.modify_bind (Yields.bind (hpush.discard.next false .unexpected) fun a v hv => ?_)
  obtain ⟨kind, start, literal⟩ := a
  obtain ⟨rfl, hv⟩ := hv
  exact hv

theorem statement_settled (h : Settled root rs s) :
    Yields statement s fun r v => r = .endOfFile ∧ Settled root rs v := by
  refine Yields.modify_bind (Yields.bind (h.discard.next true .plainWord) fun a v hv => ?_)
  exact Yields.of_ite (fun _ => ⟨rfl, hv.2⟩) fun hk => absurd hv.1 hk

variable {σ : Type} {config : Config} {source : Source} {m : Node} {v : ParserState}

theorem topCollection_run (s : ParserState) : topCollection.run s
    = (collection (s.tokenizer.committed.rest.length + 2) false).run s :=
  run_bind (p := bound) rfl

/-- A bracket that was looked at in search of a statement is handed out again as the start of a
value, from the same place. -/
theorem statement_look {c : Cursor} {kind : TokenKind} (htaken : s.tokenizer.taken = [])
    (hahead : s.tokenizer.ahead = []) (hqueued : s.tokenizer.reports = [])
    (hline : kind ≠ .lineBreak) (hnext : ∀ mode, mode ≠ .key →
      Scan.next s.tokenizer.policy mode s.visible.operators s.tokenizer.cursor
        = ⟨.sign kind 0, c, []⟩) :
    ∃ t, (next true .plainWord).run { s with tokenizer := s.tokenizer.discard }
        = (.sign kind 0, { s with tokenizer := t })
      ∧ t.replay.discard.next true .value s.visible.operators
        = s.tokenizer.discard.next true .value s.visible.operators
      ∧ t.replay.committed = s.tokenizer.committed := by
  have hplain := hnext .plainWord (by decide)
  have hread := Tokenizer.next_read true hahead (congrArg Lexeme.reports hplain)
    fun _ => by rwa [hplain]
  rw [hplain, htaken] at hread
  have hdiscard : s.tokenizer.discard = s.tokenizer := by rw [Tokenizer.discard, ← htaken]
  refine ⟨(s.tokenizer.next true .plainWord s.visible.operators).2, next_run ?_ ?_, ?_, ?_⟩
  · rw [hdiscard, hread]
  · rw [hread]
    exact hqueued
  · refine Tokenizer.next_replay true _ _ htaken hahead ?_ ?_ ?_
    · rw [hnext .value (by decide), hplain]
    · rw [hplain]
    · rwa [hplain]
  · rw [Tokenizer.committed_replay, hread, Tokenizer.committed, Tokenizer.committed, htaken, hahead]
    rfl

theorem statement_collects {ch : Char} {cs : List Char} {kind : TokenKind}
    (hkind : kind = .leftBrace ∨ kind = .leftBracket) (hchars : source.chars = ch :: cs)
    (hsign : ∀ mode, mode ≠ .key → sign? mode ch = some kind)
    (hrun : topCollection.run (start config {} source) = (some m, v)) (hv : Settled root rs v) :
    Yields statement (start config {} source) fun r w =>
      r = .complete ∧ Settled (root ++ [m]) rs w := by
  have hcursor : (start config {} source).tokenizer.cursor = ⟨0, ch :: cs⟩ := by
    rw [start, Tokenizer.ofChars, hchars]
    rfl
  generalize hs : start config {} source = s at hrun hcursor ⊢
  have htaken : s.tokenizer.taken = [] := by rw [← hs]; rfl
  have hahead : s.tokenizer.ahead = [] := by rw [← hs]; rfl
  have hqueued : s.tokenizer.reports = [] := by rw [← hs]; rfl
  have hnext (mode : ReadMode) (hm : mode ≠ .key) :
      Scan.next s.tokenizer.policy mode s.visible.operators s.tokenizer.cursor
        = ⟨.sign kind 0, ⟨1, cs⟩, []⟩ := by
    rw [hcursor]
    exact next_sign (hsign mode hm) _ _ _ _
  have hline : kind ≠ .lineBreak := by rcases hkind with rfl | rfl <;> decide
  obtain ⟨t, hlook, hback, hcommitted⟩ := statement_look htaken hahead hqueued hline hnext
  have htop : topCollection.run { s with tokenizer := t.replay } = (some m, v) := by
    rw [← hrun]
    rw [topCollection_run, topCollection_run]
    simp only [hcommitted]
    exact collection_congr _ _ hback
  have hword : Token.statementWord (.sign kind 0) = "" := by rcases hkind with rfl | rfl <;> rfl
  have hend : kind ≠ .endOfFile := by rcases hkind with rfl | rfl <;> decide
  refine Yields.modify_bind (Yields.bind_run fun a w hw => ?_)
  obtain ⟨rfl, rfl⟩ := Prod.mk.inj (hlook.symm.trans hw)
  refine Yields.of_ite (fun h => absurd h hend) fun _ => ?_
  rw [hword]
  refine Yields.bind (P := fun _ => Settled (root ++ [m]) rs) ?_ fun _ _ hw => ⟨rfl, hw⟩
  refine Yields.modify_bind (Yields.bind_run fun found w hw => ?_)
  obtain ⟨rfl, rfl⟩ := Prod.mk.inj (htop.symm.trans hw)
  exact pushValue_settled hv m

theorem compile_collection (resolve : Resolver σ) (imports : σ) {ch : Char} {cs : List Char}
    {kind : TokenKind} (hkind : kind = .leftBrace ∨ kind = .leftBracket)
    (hchars : source.chars = ch :: cs) (hsign : ∀ mode, mode ≠ .key → sign? mode ch = some kind)
    (hrun : topCollection.run (start config {} source) = (some m, v))
    (hover : v.tokenizer.Over) :
    (compile config resolve {} source imports).1.root = [m]
      ∧ (compile config resolve {} source imports).1.reports = v.reports := by
  have hready : Ready source.chars (start config {} source) :=
    start_ready config OperatorTable.valid_empty source
  have hfinds := ((topCollection_reader _).finds _ hready (Nat.lt_succ_self _)).of_run hrun
  have hext : Extends (start config {} source) v := (topCollection_extends _).of_run hrun
  have hv : Settled [] v.reports v :=
    ⟨hext.root, rfl, hfinds.commits.ready.complete, hover, hext.waiting rfl⟩
  obtain ⟨hcomplete, hs⟩ := statement_collects hkind hchars hsign hrun hv
  obtain ⟨hlast, hend⟩ := statement_settled hs
  rw [compile_eq (statements_single hcomplete hlast source.length imports), hend.complete]
  exact ⟨hend.root, hend.reports⟩

end Parser

end ConfigScript
