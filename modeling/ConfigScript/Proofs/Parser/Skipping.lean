import ConfigScript.Proofs.Parser.StatementProgress

/-! # Where skipping stops

Skipping is described by what it passes over: tokens one by one, and collections as a whole, up to
the first token that stops it. A statement ends behind the first separator, a line break or a comma
outside of collections, or with the script. -/

namespace ConfigScript.Parser

variable {cs : List Char} {s t u v : ParserState} {mode : ReadMode} {stop : StopAt} {token : Token}

/-- A kind of token that stops the skipping. -/
def StopAt.halts (stop : StopAt) : TokenKind → Bool
  | .endOfFile => true
  | .lineBreak => stop.lineBreak
  | .comma => stop.comma
  | kind => !isOpening kind && decide (stop.closer = some kind)

/-- Commits what was read and reads a token. -/
def nextToken (skipBreaks : Bool) (mode : ReadMode) : Parser Token := do
  discard
  next skipBreaks mode

/-- Gives an opening bracket back and reads the collection that it opens. -/
def passCollection : Parser Unit := do
  rewind false
  let _ ← outsideTemplate topCollection

/-- Tokens and collections are passed over up to a token that stops the skipping, and the last state
is right behind that one. -/
inductive SkipsTo (mode : ReadMode) (stop : StopAt) : ParserState → Token → ParserState → Prop
  | halts {s t : ParserState} {token : Token} (hread : (nextToken false mode).run s = (token, t))
    (hstop : stop.halts token.kind = true) : SkipsTo mode stop s token t
  | passes {s t u : ParserState} {passed token : Token}
    (hread : (nextToken false mode).run s = (passed, t)) (hgo : stop.halts passed.kind = false)
    (hopening : isOpening passed.kind = false) (hrest : SkipsTo mode stop t token u) :
    SkipsTo mode stop s token u
  | collection {s t u v : ParserState} {opening token : Token}
    (hread : (nextToken false mode).run s = (opening, t)) (hopening : isOpening opening.kind = true)
    (hpass : passCollection.run t = ((), u)) (hrest : SkipsTo mode stop u token v) :
    SkipsTo mode stop s token v

theorem StopAt.halts_of_isOpening {kind : TokenKind} (h : isOpening kind = true) :
    stop.halts kind = false := by
  cases kind <;> simp_all [isOpening, halts]

/-- What skipping stops at is determined by where it begins. -/
theorem SkipsTo.unique {other : Token} (h : SkipsTo mode stop s token t)
    (g : SkipsTo mode stop s other u) : token = other ∧ t = u := by
  -- both read the same token, whose kind decides which of the three ways it goes
  induction h generalizing other u with
  | halts hread hstop =>
    cases g with
    | halts hread' _ => exact Prod.mk.inj (hread.symm.trans hread')
    | passes hread' hgo _ _ => grind
    | collection hread' hopening _ _ => grind [StopAt.halts_of_isOpening]
  | passes hread hgo hopening _ ih =>
    cases g with
    | halts hread' hstop => grind
    | passes hread' _ _ hrest =>
      obtain ⟨-, rfl⟩ := Prod.mk.inj (hread.symm.trans hread')
      exact ih hrest
    | collection hread' hopening' _ _ => grind
  | collection hread hopening hpass _ ih =>
    cases g with
    | halts hread' hstop => grind [StopAt.halts_of_isOpening]
    | passes hread' _ hopening' _ => grind
    | collection hread' _ hpass' hrest =>
      obtain ⟨-, rfl⟩ := Prod.mk.inj (hread.symm.trans hread')
      obtain ⟨-, rfl⟩ := Prod.mk.inj (hpass.symm.trans hpass')
      exact ih hrest

/-- The same place, without reporting. -/
def hushed (s : ParserState) : ParserState := { s with recovering := true }

/-- Right behind the first token that stops the skipping. -/
def Behind (mode : ReadMode) (stop : StopAt) (s t : ParserState) : Prop :=
  ∃ token u, SkipsTo mode stop (hushed s) token u ∧ t = { u with recovering := s.recovering }

theorem Yields.nextToken {β : Type} {skipBreaks : Bool} {f : Token → Parser β}
    {Q : β → ParserState → Prop}
    (h : ∀ token t, (Parser.nextToken skipBreaks mode).run s = (token, t) → Yields (f token) t Q) :
    Yields (discard >>= fun _ => next skipBreaks mode >>= f) s Q :=
  h _ _ rfl

theorem nextToken_reads (hs : Ready cs s) (skipBreaks : Bool) (mode : ReadMode) :
    Yields (Parser.nextToken skipBreaks mode) s fun token t => Reads cs (left s) token s t :=
  Yields.discard_next (f := pure) hs fun _ _ ht _ => Yields.of_pure ht

/-- One turn of skipping stops behind a token, or passes over a token or a collection. -/
theorem skipTurn_skips (b : Bool) :
    Yields (skipTurn topCollection mode stop b) s fun r t =>
      r.Meets (fun _ => ∀ token u, SkipsTo mode stop t token u → SkipsTo mode stop s token u)
        fun _ => ∃ token, SkipsTo mode stop s token t := by
  unfold skipTurn
  refine Yields.nextToken fun token t hread => ?_
  have hhalts (h : stop.halts token.kind = true) : ∃ token, SkipsTo mode stop s token t :=
    ⟨token, .halts hread h⟩
  have hpasses (h : stop.halts token.kind = false) (ho : isOpening token.kind = false) :
      ∀ token u, SkipsTo mode stop t token u → SkipsTo mode stop s token u :=
    fun _ _ => .passes hread h ho
  have hseparator {b : Bool} (h : stop.halts token.kind = b) (ho : isOpening token.kind = false) :
      (if b = true then Turn.done false else .again false).Meets
        (fun _ => ∀ token u, SkipsTo mode stop t token u → SkipsTo mode stop s token u)
        fun _ => ∃ token, SkipsTo mode stop s token t := by
    cases b with
    | true => exact hhalts h
    | false => exact hpasses h ho
  refine Yields.of_ite (fun hk => ?_) fun hbreak => Yields.of_ite (fun hk => ?_) fun hend =>
    Yields.of_ite (fun hk => ?_) fun hcomma => Yields.of_ite (fun ho => ?_) fun ho => ?_
  · exact Yields.of_pure (hseparator (by rw [hk]; rfl) (by rw [hk]; rfl))
  · exact Yields.of_pure (hhalts (by rw [hk]; rfl))
  · exact Yields.of_pure (hseparator (by rw [hk]; rfl) (by rw [hk]; rfl))
  · have hpass : Yields (rewind false >>= fun _ => outsideTemplate topCollection >>= fun _ =>
        (pure (.again false) : Parser (Turn Bool))) t fun r u =>
        r = .again false ∧ passCollection.run t = ((), u) := ⟨rfl, rfl⟩
    refine hpass.mono fun r u hu => ?_
    obtain ⟨rfl, hrun⟩ := hu
    exact fun found v hv => .collection hread ho hrun hv
  · have hcloser : stop.halts token.kind = decide (stop.closer = some token.kind) := by
      unfold StopAt.halts
      split <;> simp_all
    refine Yields.of_ite (fun hc => ?_) fun hc => ?_
    · exact Yields.of_pure (hhalts (hcloser.trans (decide_eq_true hc)))
    · exact Yields.of_pure (hpasses (hcloser.trans (decide_eq_false hc)) (eq_false_of_ne_true ho))

theorem skipTo_skips (hs : Ready cs s) :
    Yields (skipTo topCollection mode stop) s fun _ t => Behind mode stop s t := by
  unfold skipTo
  refine Yields.get_bind (Yields.modify_bind ?_)
  have hs' : Ready cs (hushed s) := ⟨hs.1, hs.2, hs.3⟩
  -- what is passed over from where the loop has come to, is passed over from its beginning
  have hloop : Yields (loop (skipTurn topCollection mode stop) false) (hushed s) fun _ u =>
      ∃ token, SkipsTo mode stop (hushed s) token u := by
    refine Yields.of_loop (I := fun u => Ready cs u ∧ ∀ token v, SkipsTo mode stop u token v →
      SkipsTo mode stop (hushed s) token v) (fun _ h => h.1) (fun b u hu => ?_)
      ⟨hs', fun _ _ h => h⟩
    have hturn := skipTurn_spec (topCollection_reader _) mode stop b hu.1 (Nat.lt_succ_self _)
    refine (hturn.and (skipTurn_skips b)).mono fun r v hv => ?_
    cases r with
    | again b => exact ⟨⟨hv.1.1.ready, fun token w hw => hu.2 _ _ (hv.2 _ _ hw)⟩, hv.1.2⟩
    | done b =>
      obtain ⟨token, htoken⟩ := hv.2
      exact ⟨token, hu.2 _ _ htoken⟩
  refine Yields.bind hloop fun b u hu => Yields.modify_bind (Yields.of_pure ?_)
  obtain ⟨token, htoken⟩ := hu
  exact ⟨token, u, htoken, rfl⟩

theorem skipStatement_skips (hs : Ready cs s) :
    Yields (skipStatement mode stop) s fun _ t => Behind mode stop s t :=
  Yields.bind (skipTo_skips hs) fun _ _ ht => Yields.of_pure ht

/-! ## Lines -/

/-- Everything is passed over up to a line break or the end of the script. -/
inductive LeavesLine : ParserState → ParserState → Prop
  | ends {s t : ParserState} {token : Token} (hread : (next false .word).run s = (token, t))
    (hend : token.kind = .lineBreak ∨ token.kind = .endOfFile) : LeavesLine s t
  | goes {s t u : ParserState} {token : Token} (hread : (next false .word).run s = (token, t))
    (hgo : ¬(token.kind = .lineBreak ∨ token.kind = .endOfFile)) (hrest : LeavesLine t u) :
    LeavesLine s u

theorem skipLine_leaves (hs : Ready cs s) : Yields skipLine s fun _ t => LeavesLine s t := by
  refine Yields.of_loop (I := fun u => Ready cs u ∧ ∀ v, LeavesLine u v → LeavesLine s v)
    (fun _ h => h.1) (fun _ u hu => ?_) ⟨hs, fun _ h => h⟩
  have hnext : Yields (next false .word) u fun token v =>
      Reads cs (uncommitted u) token u v ∧ (next false .word).run u = (token, v) :=
    ⟨next_reads hu.1 false .word, rfl⟩
  refine Yields.bind hnext fun token v hv => Yields.of_ite (fun hend => ?_) fun hgo => ?_
  · exact Yields.of_pure (hu.2 v (.ends hv.2 hend))
  · refine Yields.of_pure ⟨⟨hv.1.ready, fun w hw => hu.2 w (.goes hv.2 hgo hw)⟩, ?_⟩
    exact hv.1.lt fun he => hgo (.inr he)

/-! ## The ends of statements -/

/-- Reports the token that comes next, and gives it back. -/
def reportMissing (message : String) : Parser Token := do
  let token ← nextToken false .unexpected
  rewind (token.kind == .unexpected)
  error message
  return token

/-- The token that comes next does not end a statement; after a report on it, what follows is
skipped up to the first separator, from the token on. -/
def Missing (message : String) (s : ParserState) (r : Report) (t : ParserState) : Prop :=
  ∃ token u, (reportMissing message).run s = (token, u)
    ∧ statementEnd.halts token.kind = false ∧ r = Report.errorAt message (some token.start)
    ∧ Behind .unexpected statementEnd u t

/-- Reading goes on right behind the first separator. A comma that comes next after a line break
belongs to it. -/
inductive EndsStatement : ParserState → ParserState → Prop
  | separator {s t u : ParserState} {token : Token}
    (hread : (nextToken false .unexpected).run s = (token, t))
    (hstop : statementEnd.halts token.kind = true) (hplace : u.tokenizer.here = t.tokenizer.here) :
    EndsStatement s u
  | comma {s t u : ParserState} {token comma : Token}
    (hread : (nextToken false .unexpected).run s = (token, t)) (hbreak : token.kind = .lineBreak)
    (hcomma : (nextToken true .unexpected).run t = (comma, u))
    (hkind : comma.kind = .comma) : EndsStatement s u
  | missing {message : String} {s t : ParserState} {r : Report} (hmissing : Missing message s r t) :
    EndsStatement s t

theorem rewind_here (again : Bool) :
    Yields (rewind again) s fun _ t => t.tokenizer.here = s.tokenizer.committed := by
  refine Yields.of_modify ?_
  cases again with
  | true => exact Tokenizer.here_reread _
  | false => exact Tokenizer.here_replay _

theorem nextToken_committed (hs : Ready cs s) (skipBreaks : Bool) (mode : ReadMode) :
    Yields (nextToken skipBreaks mode) s fun _ t =>
      t.tokenizer.committed = s.tokenizer.here := by
  obtain ⟨-, ht⟩ := Tokenizer.next_onText hs.onText.discard skipBreaks mode hs.operators
  refine Yields.modify_bind (Yields.get_bind (Yields.set_bind
    (Yields.bind (addReports_still _) fun _ t hst => Yields.of_pure ?_)))
  rw [hst.tokenizer]
  exact ht.committed.trans (Tokenizer.committed_discard _)

theorem endStatement_ends (hs : Ready cs s) :
    Yields endStatement s fun ended t => if ended then EndsStatement s t
      else ∃ token u, (nextToken false .unexpected).run s = (token, u)
        ∧ statementEnd.halts token.kind = false
        ∧ (rewind (token.kind == .unexpected)).run u = ((), t) := by
  unfold endStatement
  refine Yields.nextToken fun token t hread => ?_
  have ht : Ready cs t := ((nextToken_reads hs false .unexpected).of_run hread).ready
  have hseparator {u : ParserState} (hk : statementEnd.halts token.kind = true)
      (hu : u.tokenizer.here = t.tokenizer.here) : EndsStatement s u := .separator hread hk hu
  split
  · rename_i hk
    refine Yields.nextToken fun follow u hfollow => Yields.of_ite (fun _ => ?_) fun hcomma => ?_
    · have hplace : u.tokenizer.committed = t.tokenizer.here :=
        (nextToken_committed ht true .unexpected).of_run hfollow
      refine Yields.bind (rewind_here _) fun _ v hv => Yields.of_pure ?_
      exact hseparator (by rw [hk]; rfl) (hv.trans hplace)
    · exact Yields.of_pure (.comma hread hk hfollow (by simpa using hcomma))
  · rename_i hk
    exact Yields.of_pure (hseparator (by rw [hk]; rfl) rfl)
  · rename_i hk
    exact Yields.of_pure (hseparator (by rw [hk]; rfl) rfl)
  · rename_i hbreak hend hcomma
    refine Yields.bind (P := fun _ u => (rewind (token.kind == .unexpected)).run t = ((), u)) rfl
      fun _ u hu => Yields.of_pure ⟨token, t, hread, ?_, hu⟩
    simp [StopAt.halts, statementEnd]

end ConfigScript.Parser
