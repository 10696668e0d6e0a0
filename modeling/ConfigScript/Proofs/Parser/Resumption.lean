import ConfigScript.Proofs.Parser.Blame
import ConfigScript.Proofs.Parser.Requests
import ConfigScript.Proofs.Parser.Skipping

/-! # Where reading goes on after an error

A statement that imports or withdraws something has a body and an end. Where its end is missing, all
up to the first separator is skipped, and reading goes on right behind that one. An error in the
body is followed by skipping of its own, up to the end of the line or beyond. Of a statement that
withdraws something the end is looked for all the same, so that the next line belongs to it; one
that imports has no end after such an error, nor after an import that is refused. -/

namespace ConfigScript.Parser

variable {σ : Type} {cs : List Char} {s t u v : ParserState} {mode : ReadMode} {token : Token}
  {r : Report} {P : Report → Prop}

/-! ## The end of a statement -/

theorem nextToken_blames (skipBreaks : Bool) (mode : ReadMode) :
    Moves (Blames P) (nextToken skipBreaks mode) :=
  Moves.bind discard_blames fun _ => next_blames skipBreaks mode

theorem next_lastStart (skipBreaks : Bool) (mode : ReadMode) :
    Yields (next skipBreaks mode) s fun token t => t.tokenizer.lastStart = token.start := by
  refine Yields.get_bind (Yields.set_bind (Yields.bind (addReports_still _) fun _ t ht => ?_))
  exact Yields.of_pure (by rw [ht.tokenizer])

theorem endStatement_blames : Moves (Blames P) endStatement := by
  refine Moves.bind discard_blames fun _ => Moves.bind (next_blames _ _) fun token => ?_
  split
  · refine Moves.bind discard_blames fun _ => Moves.bind (next_blames _ _) fun _ => ?_
    exact Moves.ite (Moves.bind (rewind_blames _) fun _ => Moves.pure _) (Moves.pure _)
  · exact Moves.pure _
  · exact Moves.pure _
  · exact Moves.bind (rewind_blames _) fun _ => Moves.pure _

theorem nextToken_rewind_lastStart {skipBreaks again : Bool}
    (hread : (nextToken skipBreaks mode).run s = (token, t))
    (hback : (rewind again).run t = ((), u)) : u.tokenizer.lastStart = token.start := by
  have ht : t.tokenizer.lastStart = token.start :=
    (Yields.modify_bind (next_lastStart skipBreaks mode) :
      Yields (nextToken skipBreaks mode) s _).of_run hread
  rw [← ht]
  have hu : Yields (rewind again) t fun _ u => u.tokenizer.lastStart = t.tokenizer.lastStart := by
    refine Yields.of_modify ?_
    cases again <;> rfl
  exact hu.of_run hback

theorem expectEnd_ends (message : String) (hs : Ready cs s) :
    Yields (expectEnd message) s fun _ t =>
      EndsStatement s t ∧ Blames (fun r => Missing message s r t) s t := by
  unfold expectEnd
  refine Yields.bind_run fun ended t hrun => ?_
  have hends := (endStatement_ends hs).of_run hrun
  have ht : Ready cs t := ((endStatement_spec hs).of_run hrun).ready
  have hfirst {P : Report → Prop} : Blames P s t := (endStatement_blames s).of_run hrun
  cases ended with
  | true => exact Yields.of_pure ⟨hends, hfirst⟩
  | false =>
    obtain ⟨token, w, hread, hstop, hback⟩ := hends
    refine Yields.bind_run fun _ u herror => ?_
    have hreport : (reportMissing message).run s = (token, u) :=
      (run_bind hread).trans ((run_bind hback).trans (run_bind herror))
    have hu : Ready cs u := ((error_still message).of_run herror).ready ht
    have hlast := nextToken_rewind_lastStart hread hback
    have hsecond : Blames (· = Report.errorAt message (some token.start)) t u :=
      hlast ▸ (error_blames message).of_run herror
    refine Yields.by_run fun _ v hskip => ?_
    have hmissing : ∀ r, r = Report.errorAt message (some token.start) → Missing message s r v :=
      fun r hr => ⟨token, u, hreport, hstop, hr, (skipStatement_skips hu).of_run hskip⟩
    have hthird {P : Report → Prop} : Blames P u v := (skipStatement_blames _ _ u).of_run hskip
    exact ⟨.missing (hmissing _ rfl), hfirst.trans ((hsecond.mono hmissing).trans hthird)⟩

/-! ## Errors in the body of a statement -/

/-- Reading on: nothing is taken back, and nothing else changes but what reading values changes. -/
structure ReadsOn (cs : List Char) (s t : ParserState) : Prop where
  onward : Onward cs s t
  grown : Extends s t

theorem ReadsOn.trans (h : ReadsOn cs s t) (g : ReadsOn cs t u) : ReadsOn cs s u :=
  ⟨h.onward.trans g.onward, h.grown.trans g.grown⟩

theorem next_readsOn (hs : Ready cs s) (skipBreaks : Bool) (mode : ReadMode) :
    Yields (next skipBreaks mode) s fun _ t => ReadsOn cs s t :=
  ((next_reads hs skipBreaks mode).and (next_extends skipBreaks mode s)).mono
    fun _ _ ht => ⟨ht.1.onward, ht.2⟩

theorem nextToken_readsOn (hs : Ready cs s) (skipBreaks : Bool) (mode : ReadMode) :
    Yields (nextToken skipBreaks mode) s fun _ t => ReadsOn cs s t :=
  ((nextToken_reads hs skipBreaks mode).and
    (Moves.bind discard_extends (fun _ => next_extends skipBreaks mode) s)).mono
    fun _ _ ht => ⟨ht.1.commits.onward hs, ht.2⟩

theorem rewind_readsOn {skipBreaks : Bool} (hs : Ready cs s)
    (hread : (nextToken skipBreaks mode).run s = (token, t)) (again : Bool) :
    Yields (rewind again) t fun _ u => ReadsOn cs s u := by
  have hreads := (nextToken_reads hs skipBreaks mode).of_run hread
  have ht := (nextToken_readsOn hs skipBreaks mode).of_run hread
  refine ((rewind_spec hreads.ready again).and (rewind_extends again t)).mono fun _ u hu => ?_
  exact ⟨(hreads.commits.within hu.1.within).onward hs, ht.grown.trans hu.2⟩

theorem discard_readsOn (hs : Ready cs s) : Yields discard s fun _ t => ReadsOn cs s t := by
  refine ⟨⟨hs.discard, Nat.le_refl _, ?_⟩, discard_extends s⟩
  have hc : s.tokenizer.discard.committed = s.tokenizer.here := Tokenizer.committed_discard _
  exact (congrArg (·.rest.length) hc).trans_le hs.left_le

/-- Reads a token and reports it. -/
def reportNext (skipBreaks : Bool) (mode : ReadMode) (message : String) : Parser Token := do
  let token ← next skipBreaks mode
  error message
  return token

/-- After reading on from `s`, the report is made on the token that comes next, up to the state `t`
right behind that token. -/
def Faults (cs : List Char) (s : ParserState) (skipBreaks : Bool) (mode : ReadMode)
    (message : String) (r : Report) (t : ParserState) : Prop :=
  ∃ u token, ReadsOn cs s u ∧ (reportNext skipBreaks mode message).run u = (token, t)
    ∧ r = Report.errorAt message (some token.start)

theorem faults_of_run {skipBreaks : Bool} {message : String} (ht : ReadsOn cs s t)
    (hread : (next skipBreaks mode).run t = (token, u)) (herror : (error message).run u = ((), v)) :
    Ready cs v ∧ Blames (fun r => Faults cs s skipBreaks mode message r v) u v := by
  have hready : Ready cs u := ((next_reads ht.onward.ready skipBreaks mode).of_run hread).ready
  refine ⟨((error_still message).of_run herror).ready hready, ?_⟩
  have hlast : u.tokenizer.lastStart = token.start :=
    (next_lastStart skipBreaks mode).of_run hread
  have hfault : (reportNext skipBreaks mode message).run t = (token, v) :=
    (run_bind hread).trans (run_bind herror)
  have hblames := (error_blames message).of_run herror
  rw [hlast] at hblames
  exact hblames.mono fun r hr => ⟨t, token, ht, hfault, hr⟩

/-- An error in the body of a statement that withdraws something, and what is skipped after it:
without a name, the line, from the token on; without the kind of a macro, the line, from behind the
token; within its brackets, all up to the closing one, and without a path, all up to a separator,
both from behind the token. -/
inductive Strays (cs : List Char) (s : ParserState) (r : Report) (t : ParserState) : Prop
  | name {mode : ReadMode} {u v : ParserState} (hfault : Faults cs s true mode "Expected name" r u)
    (hback : (rewind false).run u = ((), v)) (hskip : Behind mode lineEnd v t)
  | kind {u : ParserState} (hfault : Faults cs s false .plainWord
      "Expected '\x7b', '[', '(' or end of statement" r u) (hskip : LeavesLine u t)
  | bracket {closer : TokenKind} {u : ParserState}
    (hfault : Faults cs s true .unexpected s!"Expected {closer.label}" r u)
    (hskip : Behind .unexpected (closerOnly closer) u t)
  | path {u : ParserState} (hfault : Faults cs s false .value "Expected path" r u)
    (hskip : Behind .unexpected statementEnd u t)

theorem Faults.of_readsOn {skipBreaks : Bool} {message : String} (hs : ReadsOn cs s t)
    (h : Faults cs t skipBreaks mode message r u) : Faults cs s skipBreaks mode message r u := by
  obtain ⟨v, token, hv, hrun, hr⟩ := h
  exact ⟨v, token, hs.trans hv, hrun, hr⟩

theorem Strays.of_readsOn (hs : ReadsOn cs s t) (h : Strays cs t r u) : Strays cs s r u := by
  cases h with
  | name hfault hback hskip => exact .name (hfault.of_readsOn hs) hback hskip
  | kind hfault hskip => exact .kind (hfault.of_readsOn hs) hskip
  | bracket hfault hskip => exact .bracket (hfault.of_readsOn hs) hskip
  | path hfault hskip => exact .path (hfault.of_readsOn hs) hskip

theorem definitionName_readsOn (hs : Ready cs s) :
    Yields (definitionName mode) s fun _ t => ReadsOn cs s t :=
  ((definitionName_spec mode hs).and ((extends_rules.definitionName mode).moves s)).mono
    fun _ _ ht => ⟨ht.1, ht.2⟩

theorem definitionName_strays (hs : Ready cs s) :
    Yields (definitionName mode) s fun name t =>
      Blames (fun r => name = none ∧ Strays cs s r t) s t := by
  unfold definitionName
  refine Yields.bind_run fun _ t hdiscard => Yields.bind_run fun token u hread => ?_
  have ht : ReadsOn cs s t := (discard_readsOn hs).of_run hdiscard
  have hfirst {P : Report → Prop} : Blames P s u :=
    ((discard_blames s).of_run hdiscard).trans ((next_blames _ _ t).of_run hread)
  refine Yields.of_ite (fun hno => ?_) fun _ => Yields.of_pure hfirst
  · refine Yields.bind_run fun _ v herror => Yields.bind_run fun _ w hback =>
      Yields.bind_run fun _ x hskip => Yields.of_pure ?_
    obtain ⟨hv, hfault⟩ := faults_of_run ht hread herror
    have hw : Ready cs w := ((rewind_spec hv false).of_run hback).ready
    have hnone : token.literal = none := by simpa [Token.isLiteral] using hno
    have hrest {P : Report → Prop} : Blames P v x :=
      ((rewind_blames false v).of_run hback).trans ((skipStatement_blames _ _ w).of_run hskip)
    refine hfirst.trans ((hfault.mono fun r hr => ⟨hnone, ?_⟩).trans hrest)
    exact .name hr hback ((skipStatement_skips hw).of_run hskip)

theorem expect_strays (closer : TokenKind) (ht : ReadsOn cs s t) :
    Yields (expect closer) t fun _ u => Blames (fun r => Strays cs s r u) t u := by
  unfold expect
  refine Yields.bind_run fun token u hread => ?_
  have hfirst {P : Report → Prop} : Blames P t u := (next_blames _ _ t).of_run hread
  refine Yields.of_ite (fun _ => ?_) fun _ => Yields.of_pure hfirst
  refine Yields.bind_run fun _ v herror => Yields.by_run fun _ w hskip => ?_
  obtain ⟨hv, hfault⟩ := faults_of_run ht hread herror
  have hrest {P : Report → Prop} : Blames P v w := (skipStatement_blames _ _ v).of_run hskip
  refine hfirst.trans ((hfault.mono fun r hr => ?_).trans hrest)
  exact .bracket hr ((skipStatement_skips hv).of_run hskip)

theorem skipLine_blames : Moves (Blames P) skipLine :=
  Moves.loop (fun _ => .of_same rfl rfl) (fun _ => Moves.bind (next_blames _ _) fun _ =>
    Moves.ite (Moves.pure _) (Moves.pure _)) ()

theorem forgottenKind?_strays (hs : Ready cs s) :
    Yields forgottenKind? s fun _ t => Blames (fun r => Strays cs s r t) s t := by
  unfold forgottenKind?
  refine Yields.bind_run fun _ t hdiscard => Yields.bind_run fun token u hread => ?_
  have ht : ReadsOn cs s t := (discard_readsOn hs).of_run hdiscard
  have hu : ReadsOn cs s u := ht.trans ((next_readsOn ht.onward.ready _ _).of_run hread)
  have hfirst {P : Report → Prop} : Blames P s u :=
    ((discard_blames s).of_run hdiscard).trans ((next_blames _ _ t).of_run hread)
  have hback (kind : Option MacroKind) :
      Yields (rewind false >>= fun _ => pure kind) u fun _ v =>
        Blames (fun r => Strays cs s r v) s v :=
    Yields.bind_run fun _ _ hback =>
      Yields.of_pure (hfirst.trans ((rewind_blames false u).of_run hback))
  have hclose (closer : TokenKind) (kind : Option MacroKind) :
      Yields (expect closer >>= fun _ => pure kind) u fun _ v =>
        Blames (fun r => Strays cs s r v) s v :=
    Yields.bind (expect_strays closer hu) fun _ _ hv => Yields.of_pure (hfirst.trans hv)
  split
  · exact hback _
  · exact hback _
  · exact hback _
  · exact hclose _ _
  · exact hclose _ _
  · exact hclose _ _
  · refine Yields.bind_run fun _ v herror => Yields.bind_run fun _ w hskip => Yields.of_pure ?_
    obtain ⟨hv, hfault⟩ := faults_of_run ht hread herror
    refine hfirst.trans ((hfault.mono fun r hr => ?_).trans ((skipLine_blames v).of_run hskip))
    exact .kind hr ((skipLine_leaves hv).of_run hskip)

/-! ## Withdrawals -/

/-- Reading has strayed to a state, in which definitions may have been withdrawn since. -/
def StraysTo (cs : List Char) (s : ParserState) (r : Report) (t : ParserState) : Prop :=
  ∃ u, Strays cs s r u ∧ Still u t

theorem Strays.to (h : Strays cs s r t) : StraysTo cs s r t := ⟨t, h, .refl t⟩

theorem forgetMacro_blames (signature : Signature) : Moves (Blames P) (forgetMacro signature) :=
  Moves.modify fun _ => .of_same rfl rfl

theorem forgetOperator_blames (name : String) (keyword : Bool) :
    Moves (Blames P) (forgetOperator name keyword) :=
  Moves.modify fun _ => .of_same rfl rfl

theorem undefMacro_strays (isFunction : Bool) (hs : Ready cs s) :
    Yields (undefMacro isFunction) s fun _ t => Blames (fun r => StraysTo cs s r t) s t := by
  unfold undefMacro
  refine Yields.bind_run fun name t hname => ?_
  have ht : ReadsOn cs s t := (definitionName_readsOn hs).of_run hname
  have hfirst := (definitionName_strays hs).of_run hname
  cases name with
  | none => exact Yields.of_pure (hfirst.mono fun r hr => hr.2.to)
  | some name =>
    have hfirst {P : Report → Prop} : Blames P s t :=
      hfirst.mono fun r hr => absurd hr.1 (Option.some_ne_none name)
    refine Yields.bind_run fun kind u hkind => ?_
    have hsecond := (forgottenKind?_strays ht.onward.ready).of_run hkind
    cases kind with
    | none => exact Yields.of_pure (hfirst.trans (hsecond.mono fun r hr => (hr.of_readsOn ht).to))
    | some kind =>
      refine Yields.by_run fun _ v hforget => ?_
      have hstill : Still u v := (forgetMacro_still _).of_run hforget
      have hthird {P : Report → Prop} : Blames P u v := (forgetMacro_blames _ u).of_run hforget
      exact hfirst.trans ((hsecond.mono fun r hr => ⟨u, hr.of_readsOn ht, hstill⟩).trans hthird)

theorem undefOperator_strays (keyword : Bool) (hs : Ready cs s) :
    Yields (undefOperator keyword) s fun _ t => Blames (fun r => StraysTo cs s r t) s t := by
  unfold undefOperator
  refine Yields.bind_run fun name t hname => ?_
  have hfirst := (definitionName_strays hs).of_run hname
  cases name with
  | none => exact Yields.of_pure (hfirst.mono fun r hr => hr.2.to)
  | some name =>
    refine Yields.by_run fun _ u hforget => ?_
    exact (hfirst.mono fun r hr => absurd hr.1 (Option.some_ne_none name)).trans
      ((forgetOperator_blames _ _ t).of_run hforget)

/-! ## Statements -/

/-- After reading on, the path of an import, with the state right behind it. -/
def ReadsPath (cs : List Char) (s : ParserState) (path : String) (t : ParserState) : Prop :=
  ∃ u token, ReadsOn cs s u ∧ (next false .value).run u = (token, t) ∧ token.isLiteral = true
    ∧ token.text = path

theorem ReadsPath.readsOn {path : String} (h : ReadsPath cs s path t) : ReadsOn cs s t := by
  obtain ⟨u, token, hu, hread, -⟩ := h
  exact hu.trans ((next_readsOn hu.onward.ready _ _).of_run hread)

/-- How reading goes on after an error of a statement that imports or withdraws something, from the
state `s` behind its first word to the state `t` in which the next statement is read. -/
inductive Resumes (resolve : Resolver σ) (i : σ) (cs : List Char) (first : Token)
    (s : ParserState) (r : Report) (t : ParserState) : Prop
  /-- The token on which the error is reported does not end the statement: reading goes on right
  behind the first separator from that token on. -/
  | unended {message : String} {u : ParserState} (hu : Onward cs s u) (hgrown : Extends u t)
    (hmissing : Missing message u r t)
  /-- The body of the statement is bad: reading goes on behind the first separator from where
  skipping has come to. -/
  | strayed {u : ParserState} (hword : first.statementWord = "undef")
    (hstrays : StraysTo cs s r u) (hends : EndsStatement u t)
  /-- There is no path to import: reading goes on behind the first line break behind the token. -/
  | pathless {u : ParserState} (hword : first.statementWord = "use")
    (hfault : Faults cs s false .value "Expected path" r u) (hskip : LeavesLine u t)
  /-- What the path was answered with is reported: reading goes on behind the first separator
  behind the path. -/
  | answered {path : String} {u v : ParserState} {found : Option Definition}
    {rs : List Report} {j : σ} {q : Report} (hpath : ReadsPath cs s path u)
    (hanswer : resolve path i = (.answered found rs, j)) (hq : q ∈ rs)
    (hr : r = q.orAt (some first.start))
    (hgoes : first.statementWord = "undef" ∨ found.isSome = true) (hstill : Still u v)
    (hends : EndsStatement v t)
  /-- Nothing can be imported: reading goes on right behind the path. -/
  | refused {path : String} {u : ParserState} {rs : List Report} {j : σ} {q : Report}
    (hword : first.statementWord = "use") (hpath : ReadsPath cs s path u)
    (hanswer : resolve path i = (.answered none rs, j)) (hq : q ∈ rs)
    (hr : r = q.orAt (some first.start)) (hplace : t.tokenizer = u.tokenizer)

variable {resolve : Resolver σ} {i j : σ} {first : Token}

theorem expectEnd_resumes (message : String) (ht : Onward cs s t) :
    Yields (expectEnd message) t fun _ u =>
      EndsStatement t u ∧ Blames (fun r => Resumes resolve i cs first s r u) t u :=
  ((expectEnd_ends message ht.ready).and (expectEnd_extends message t)).mono fun _ _ hu =>
    ⟨hu.1.1, hu.1.2.mono fun _ hr => .unended ht hu.2 hr⟩

theorem finishUndef_resumes {p : Parser Unit} (hword : first.statementWord = "undef")
    (ht : ReadsOn cs s t) (hp : Yields p t fun _ u => Onward cs t u)
    (hstrays : Yields p t fun _ u => Blames (fun r => StraysTo cs s r u) t u) :
    Yields (finishUndef p) t fun st u =>
      st = .complete ∧ Blames (fun r => Resumes resolve i cs first s r u) t u := by
  refine Yields.bind (hp.and hstrays) fun _ u hu => Yields.bind_run fun _ v hrun =>
    Yields.of_pure ⟨rfl, ?_⟩
  have hend : EndsStatement u v ∧ Blames (fun r => Resumes resolve i cs first s r v) u v :=
    (expectEnd_resumes _ (ht.onward.trans hu.1)).of_run hrun
  exact (hu.2.mono fun r hr => .strayed hword hr hend.1).trans hend.2

/-- What a statement has come to: it is complete, and its errors are accounted for, or a path has
been read without one. -/
def Leads (resolve : Resolver σ) (i : σ) (cs : List Char) (first : Token) (s : ParserState)
    (forget : Bool) (st : Statement) (t : ParserState) : Prop :=
  (st = .complete ∧ Blames (fun r => Resumes resolve i cs first s r t) s t)
    ∨ ∃ path purpose, st = .importing path first.start purpose ∧ (purpose = .forget ↔ forget = true)
      ∧ ReadsPath cs s path t ∧ Blames (fun _ => False) s t

/-- The words that say what to withdraw. -/
def withdrawn : List String := ["macro", "fn", "operator", "keyword", "use"]

theorem undefStatement_leads (hword : first.statementWord = "undef") (hs : Ready cs s)
    (hkind : ((next true .plainWord).run s).1.statementWord ∈ withdrawn) :
    Yields (undefStatement first.start) s fun st t => Leads resolve i cs first s true st t := by
  unfold undefStatement
  refine Yields.bind_run fun kind t hread => ?_
  rw [hread] at hkind
  have ht : ReadsOn cs s t := (next_readsOn hs _ _).of_run hread
  have hfirst {P : Report → Prop} : Blames P s t := (next_blames _ _ s).of_run hread
  have hfinish {p : Parser Unit} (hp : Yields p t fun _ u => Onward cs t u)
      (hstrays : Yields p t fun _ u => Blames (fun r => StraysTo cs t r u) t u) :
      Yields (finishUndef p) t fun st u => Leads resolve i cs first s true st u := by
    have hstrays' : Yields p t fun _ u => Blames (fun r => StraysTo cs s r u) t u :=
      hstrays.mono fun _ u hu => hu.mono fun r hr => hr.imp fun _ h => ⟨h.1.of_readsOn ht, h.2⟩
    exact (finishUndef_resumes hword ht hp hstrays').mono fun st u hu =>
      .inl ⟨hu.1, hfirst.trans hu.2⟩
  have hready := ht.onward.ready
  split
  · exact hfinish (undefMacro_spec _ hready) (undefMacro_strays _ hready)
  · exact hfinish (undefMacro_spec _ hready) (undefMacro_strays _ hready)
  · exact hfinish (undefOperator_spec _ hready) (undefOperator_strays _ hready)
  · exact hfinish (undefOperator_spec _ hready) (undefOperator_strays _ hready)
  · refine Yields.bind_run fun token u hpath => Yields.of_ite (fun hl => ?_) fun hl => ?_
    · refine Yields.of_pure (.inr ⟨token.text, .forget, rfl, by simp, ?_, ?_⟩)
      · exact ⟨t, token, ht, hpath, hl, rfl⟩
      · exact hfirst.trans ((next_blames _ _ t).of_run hpath)
    · have hu : ReadsOn cs s u := ht.trans ((next_readsOn hready _ _).of_run hpath)
      have hsecond {P : Report → Prop} : Blames P t u := (next_blames _ _ t).of_run hpath
      refine (finishUndef_resumes hword hu (error_skipStatement_spec _ _ _ hu.onward.ready.onward)
        ?_).mono fun st v hv => .inl ⟨hv.1, hfirst.trans (hsecond.trans hv.2)⟩
      refine Yields.bind_run fun _ v herror => Yields.by_run fun _ w hskip => ?_
      obtain ⟨hv, hfault⟩ := faults_of_run ht hpath herror
      refine (hfault.mono fun r hr => ?_).trans ((skipStatement_blames _ _ v).of_run hskip)
      exact (Strays.path hr ((skipStatement_skips hv).of_run hskip)).to
  · rename_i hmacro hfn hoperator hkeyword huse
    simp only [withdrawn, List.mem_cons, List.not_mem_nil, or_false] at hkind
    tauto

theorem useStatement_leads (hword : first.statementWord = "use") (hs : Ready cs s) :
    Yields (useStatement first.start) s fun st t => Leads resolve i cs first s false st t := by
  have hpath {isPublic : Bool} {t : ParserState} (ht : ReadsOn cs s t)
      (hfirst : ∀ P, Blames P s t) :
      Yields (next false .value >>= fun token =>
        if token.isLiteral then pure (Statement.importing token.text first.start (.use isPublic))
        else error "Expected path" >>= fun _ => skipLine >>= fun _ => pure Statement.complete) t
        fun st u => Leads resolve i cs first s false st u := by
    refine Yields.bind_run fun token u hread => ?_
    have hsecond {P : Report → Prop} : Blames P t u := (next_blames _ _ t).of_run hread
    refine Yields.of_ite (fun hl => ?_) fun _ => ?_
    · refine Yields.of_pure (.inr ⟨token.text, .use isPublic, rfl, by simp, ?_, ?_⟩)
      · exact ⟨t, token, ht, hread, hl, rfl⟩
      · exact (hfirst _).trans hsecond
    · refine Yields.bind_run fun _ v herror => Yields.bind_run fun _ w hskip =>
        Yields.of_pure (.inl ⟨rfl, ?_⟩)
      obtain ⟨hv, hfault⟩ := faults_of_run ht hread herror
      have hrest {P : Report → Prop} : Blames P v w := (skipLine_blames v).of_run hskip
      refine (hfirst _).trans (hsecond.trans ((hfault.mono fun r hr => ?_).trans hrest))
      exact .pathless hword hr ((skipLine_leaves hv).of_run hskip)
  unfold useStatement
  refine Yields.nextToken fun token t hread => ?_
  have ht : ReadsOn cs s t := (nextToken_readsOn hs _ _).of_run hread
  have hfirst (P : Report → Prop) : Blames P s t := (nextToken_blames _ _ s).of_run hread
  refine Yields.of_ite (fun _ => ?_) fun _ => hpath ht hfirst
  refine Yields.bind_run fun _ u hback => hpath ((rewind_readsOn hs hread true).of_run hback)
    fun P => (hfirst P).trans ((rewind_blames true t).of_run hback)

/-! ## Imports -/

theorem add_reports_not_error (registry : MacroRegistry) (m : Macro) :
    ∀ r ∈ (registry.add m).2, r.isError = false := by
  intro r hr
  rcases List.mem_append.mp hr with hr | hr
  all_goals
    split at hr
    · simp at hr
    · rw [List.mem_singleton.mp hr]
      rfl

theorem copyMacros_reports_not_error (d : Definition) (ms : List Macro) :
    ∀ r ∈ (d.copyMacros ms).2, r.isError = false := by
  induction ms generalizing d with
  | nil => simp [Definition.copyMacros]
  | cons m ms ih => exact List.forall_mem_append.mpr ⟨add_reports_not_error _ m, ih _⟩

theorem copyOperators_reports_not_error (d : Definition) (os : List Operator) :
    ∀ r ∈ (d.copyOperators os).2, r.isError = false := by
  induction os generalizing d with
  | nil => simp [Definition.copyOperators]
  | cons o os ih =>
    refine List.forall_mem_append.mpr ⟨fun r hr => ?_, ih _⟩
    change r ∈ if (d.operators.add o).2.isAccepted = true then [] else [Report.warning _] at hr
    split at hr
    · simp at hr
    · rw [List.mem_singleton.mp hr]
      rfl

theorem copy_reports_not_error (d source : Definition) :
    ∀ r ∈ (d.copy source).2, r.isError = false :=
  List.forall_mem_append.mpr
    ⟨copyMacros_reports_not_error d _, copyOperators_reports_not_error _ _⟩

/-- Once definitions have been taken over or withdrawn, the end of the statement is looked for. -/
def Closes (s t : ParserState) : Prop :=
  ∃ message u, Still s u ∧ EndsStatement u t ∧ Extends u t
    ∧ Blames (fun r => Missing message u r t) s t

/-- A statement that imports ends at its path if nothing was found. -/
theorem finishImport_closes (start : Nat) {found : Option Definition} (hf : OperatorsChecked found)
    (purpose : Purpose) (hs : Ready cs s) :
    Yields (finishImport start found purpose) s fun _ t =>
      (purpose ≠ .forget ∧ found = none ∧ t = s)
        ∨ (purpose = .forget ∨ found.isSome = true) ∧ Closes s t := by
  have hend {u : ParserState} (message : String) (hu : Still s u) (hfirst : ∀ P, Blames P s u) :
      Yields (expectEnd message) u fun _ t => Closes s t :=
    ((expectEnd_ends message (hu.ready hs)).and (expectEnd_extends message u)).mono fun _ t ht =>
      ⟨message, u, hu, ht.1.1, ht.2, (hfirst _).trans ht.1.2⟩
  cases purpose with
  | use isPublic =>
    cases found with
    | none => exact Yields.of_pure (.inl ⟨by simp, rfl, rfl⟩)
    | some d =>
      refine Yields.mono (P := fun _ t => Closes s t) ?_ fun _ _ ht => .inr ⟨.inr rfl, ht⟩
      refine Yields.get_bind (Yields.modify_bind (Yields.bind_run fun _ t hcopy => ?_))
      have hstill : Still s t := Still.trans (t := { s with visible := (s.visible.copy d).1 })
        ⟨rfl, fun h => copy_valid h (hf d rfl), rfl⟩ ((addReports_still _).of_run hcopy)
      have hfirst (P : Report → Prop) : Blames P s t := by
        refine Blames.trans (t := { s with visible := (s.visible.copy d).1 }) (.of_same rfl rfl)
          ((addReports_not_error (fun r hr => ?_) _).of_run hcopy)
        obtain ⟨q, hq, rfl⟩ := List.mem_map.mp hr
        exact copy_reports_not_error _ _ q hq
      refine Yields.of_ite (fun _ => Yields.modify_bind (hend _ ?_ fun P => ?_)) fun _ =>
        hend _ hstill hfirst
      · exact hstill.trans ⟨rfl, id, rfl⟩
      · exact (hfirst P).trans (.of_same rfl rfl)
  | forget =>
    refine Yields.mono (P := fun _ t => Closes s t) ?_ fun _ _ ht => .inr ⟨.inl rfl, ht⟩
    cases found with
    | none => exact hend _ (.refl s) fun _ => .refl s
    | some d =>
      refine Yields.bind_run fun _ t hmacros => Yields.bind_run fun _ u hoperators => ?_
      have ht : Still s t := (forM_still _ fun x s => forgetMacro_still x).of_run hmacros
      have hu : Still t u :=
        (forM_still d.operators.spellings fun x s => forgetOperator_still x.1 x.2).of_run hoperators
      refine hend _ (ht.trans hu) fun P => Blames.trans (t := t) ?_ ?_
      · exact (Moves.forM _ forgetMacro_blames s).of_run hmacros
      · exact (Moves.forM d.operators.spellings
          (fun x => forgetOperator_blames x.1 x.2) t).of_run hoperators

/-! ## Turns -/

/-- A statement that imports, or withdraws what the word after `undef` says. -/
def ImportsOrWithdraws (first : Token) (s : ParserState) : Prop :=
  first.statementWord = "use" ∨ first.statementWord = "undef"
    ∧ ((next true .plainWord).run s).1.statementWord ∈ withdrawn

theorem statement_leads (hfirst : firstWord.run s = (first, t)) (ht : Ready cs t)
    (hword : ImportsOrWithdraws first t) :
    Yields statement s fun st u =>
      Leads resolve i cs first t (first.statementWord = "undef") st u := by
  have hkind : first.kind ≠ .endOfFile := by
    intro hend
    simp [ImportsOrWithdraws, Token.statementWord, hend] at hword
  unfold statement
  rw [← bind_assoc]
  refine Yields.bind_run fun a u hrun => ?_
  obtain ⟨rfl, rfl⟩ := Prod.mk.inj (hfirst.symm.trans hrun)
  rw [if_neg hkind]
  rcases hword with hword | ⟨hword, hsecond⟩
  all_goals simp only [hword]
  · exact useStatement_leads hword ht
  · exact undefStatement_leads hword ht hsecond

/-- What is answered is reported at the statement that asked for it. -/
theorem takeAnswer_resumes {path : String} {purpose : Purpose} {found : Option Definition}
    {rs : List Report} (hf : OperatorsChecked found) (hpath : ReadsPath cs s path t)
    (hpurpose : purpose = .forget ↔ first.statementWord = "undef")
    (hword : first.statementWord = "use" ∨ first.statementWord = "undef")
    (hanswer : resolve path i = (.answered found rs, j)) :
    Yields (takeAnswer first.start purpose found rs) t fun _ u =>
      Blames (fun r => Resumes resolve i cs first s r u) t u := by
  unfold takeAnswer
  refine Yields.bind_run fun _ u htold => Yields.by_run fun _ v hfinish => ?_
  have ht : Onward cs s t := hpath.readsOn.onward
  have hu : Still t u := (addReports_still _).of_run htold
  have hends := (finishImport_closes first.start hf purpose (hu.ready ht.ready)).of_run hfinish
  have hfirst : Blames (fun r => ∃ q ∈ rs, r = q.orAt (some first.start)) t u := by
    refine ((addReports_blames _).of_run htold).mono fun r hr => ?_
    obtain ⟨q, hq, rfl⟩ := hr
    obtain ⟨p, hp, rfl⟩ := List.mem_map.mp hq
    exact ⟨p, hp, by cases hpos : p.position <;> simp [Report.orAt, hpos]⟩
  rcases hends with ⟨hne, rfl, rfl⟩ | ⟨hgoes, message, w, hstill, hend, hgrown, hblames⟩
  · refine hfirst.mono fun r hr => ?_
    obtain ⟨q, hq, rfl⟩ := hr
    exact .refused (hword.resolve_right fun h => hne (hpurpose.mpr h)) hpath hanswer hq rfl
      hu.tokenizer
  · refine Blames.trans (hfirst.mono fun r hr => ?_) (hblames.mono fun r hr => ?_)
    · obtain ⟨q, hq, rfl⟩ := hr
      exact .answered hpath hanswer hq rfl (hgoes.imp_left hpurpose.mp) (hu.trans hstill) hend
    · exact .unended (ht.still (hu.trans hstill)) hgrown hr

/-- Between any two statements of a script, whatever its imports are answered with: if a statement
comes next that imports or withdraws something, and an error is reported in its turn that is not a
lexical one, then reading goes on in one of five ways. Right behind the first separator from the
token of the error on, if the end of the statement was missing there, and behind the first separator
from the path on, if the answer to it was reported; behind the first separator from where skipping
has come to, if there was no name, no kind, no closing bracket or no path of what to withdraw;
behind the first line break behind the token, if there was no path to import, and right behind the
path, if the import was refused. -/
theorem reading_resumes (config : Config) (resolve : Resolver σ) (hresolve : resolve.Checked)
    (visible : Definition) (hvisible : visible.operators.Valid) (source : Source) (imports : σ)
    {s t u : ParserState} {i j : σ} (h : Reached resolve (start config visible source) imports s i)
    {first : Token} (hfirst : firstWord.run s = (first, t)) (hword : ImportsOrWithdraws first t)
    (hturn : turn resolve s i = (.goesOn, u, j)) {r : Report}
    (hr : r ∈ u.reports.drop s.reports.length) (he : r.isError = true)
    (hlexical : r.isLexical = false) : Resumes resolve i source.chars first t r u := by
  have hs : Ready source.chars s := h.ready_of_checked hresolve (start_ready config hvisible source)
  have ht : Ready source.chars t := ((nextToken_reads hs true .plainWord).of_run hfirst).ready
  have hbegins : Blames (fun r => Resumes resolve i source.chars first t r u) s t :=
    (nextToken_blames true .plainWord s).of_run hfirst
  have hall : Blames (fun r => Resumes resolve i source.chars first t r u) s u := by
    refine hbegins.trans ?_
    have hturned := turn_turned resolve s i
    rw [hturn] at hturned
    cases hturned with
    | complete _ hrun =>
      have hleads : Leads resolve i source.chars first t _ _ u :=
        (statement_leads hfirst ht hword).of_run hrun
      rcases hleads with ⟨-, hblames⟩ | ⟨path, purpose, hst, -⟩
      · exact hblames
      · simp at hst
    | @answered v path start purpose found rs j _ hrun hanswer =>
      have hleads : Leads resolve i source.chars first t _ _ v :=
        (statement_leads hfirst ht hword).of_run hrun
      rcases hleads with ⟨hst, -⟩ | ⟨path', purpose', hst, hpurpose, hpath, hsilent⟩
      · simp at hst
      · obtain ⟨rfl, rfl, rfl⟩ := Statement.importing.inj hst
        have hrest : Blames (fun r => Resumes resolve i source.chars first t r _) v _ :=
          takeAnswer_resumes (hresolve _ _ _ _ _ hanswer) hpath (by simpa using hpurpose)
            (hword.imp_right And.left) hanswer
        exact (hsilent.mono fun _ => False.elim).trans hrest
  obtain ⟨-, rs, hrs, hblamed⟩ := hall (h.grows.waiting rfl)
  rw [hrs, List.drop_left] at hr
  exact (hblamed r hr he).resolve_left (by simp [hlexical])

/-- A name with something behind it. -/
theorem reading_resumes_unended :
    let resolve : Resolver Unit := fun _ i => (.answered none [], i)
    let source := Source.ofText "undef operator + x\nfoo"
    let s := start {} {} source
    let first := firstWord.run s
    let u := (turn resolve s ()).2.1
    resolve.Checked ∧ OperatorTable.Valid {} ∧ Reached resolve s () s ()
      ∧ ImportsOrWithdraws first.1 first.2
      ∧ ∃ r ∈ u.reports.drop s.reports.length, r.isError = true ∧ r.isLexical = false
        ∧ r.position = some 17 ∧ Resumes resolve () source.chars first.1 first.2 r u := by
  intro resolve source s first u
  have hresolve : resolve.Checked := by
    intro path i found rs j h
    obtain ⟨rfl, -⟩ := ImportAnswer.answered.inj (Prod.mk.inj h).1
    simp [OperatorsChecked]
  have hvalid : OperatorTable.Valid {} := fun o ho => absurd ho List.not_mem_nil
  have hreached : Reached resolve s () s () := .start
  have hword : ImportsOrWithdraws first.1 first.2 := .inr ⟨by decide +kernel, by decide +kernel⟩
  have hturn : turn resolve s () = (.goesOn, u, ()) :=
    Prod.ext (show (turn resolve s ()).1 = .goesOn by decide +kernel) rfl
  have herror : ∃ r ∈ u.reports.drop s.reports.length, r.isError = true ∧ r.isLexical = false
      ∧ r.position = some 17 := by decide +kernel
  obtain ⟨r, hr, he, hlexical, hposition⟩ := herror
  exact ⟨hresolve, hvalid, hreached, hword, r, hr, he, hlexical, hposition,
    reading_resumes {} resolve hresolve {} hvalid source () hreached rfl hword hturn hr he hlexical⟩

/-- The separator behind the token without a name is at 16, but reading goes on at 21: the next
statement is skipped. -/
theorem undef_nameless_swallows :
    let resolve : Resolver Unit := fun _ i => (.answered none [], i)
    let s := start {} {} (Source.ofText "undef operator \x7d\nfoo\nbar")
    let first := firstWord.run s
    let kind := (next true .plainWord).run first.2
    let w := (rewind false).run ((nextToken true .word).run kind.2).2
    let u := (turn resolve s ()).2.1
    ImportsOrWithdraws first.1 first.2
      ∧ (∃ r ∈ u.reports.drop s.reports.length, r.isError = true ∧ r.isLexical = false
        ∧ r.position = some ((nextToken false .unexpected).run w.2).1.start)
      ∧ (∃ token v, SkipsTo .unexpected statementEnd (hushed w.2) token v ∧ token.start = 16
        ∧ v.tokenizer.here.pos = 17)
      ∧ u.tokenizer.here.pos = 21
      ∧ ∀ token v, SkipsTo .unexpected statementEnd (hushed w.2) token v →
        u.tokenizer.here ≠ v.tokenizer.here := by
  intro resolve s first kind w u
  have hskip : ∃ token v, SkipsTo .unexpected statementEnd (hushed w.2) token v
      ∧ token.start = 16 ∧ v.tokenizer.here.pos = 17 := by
    refine ⟨_, _, .passes (Prod.eta _).symm ?_ ?_ (.halts (Prod.eta _).symm ?_), ?_, ?_⟩
    all_goals decide +kernel
  have hnext : u.tokenizer.here.pos = 21 := by decide +kernel
  refine ⟨.inr ⟨by decide +kernel, by decide +kernel⟩, by decide +kernel, hskip, hnext, ?_⟩
  intro token v hv heq
  obtain ⟨token', v', hv', -, hpos⟩ := hskip
  obtain ⟨-, rfl⟩ := hv.unique hv'
  rw [← heq, hnext] at hpos
  exact absurd hpos (by decide)

end ConfigScript.Parser
