import ConfigScript.Proofs.Operator.Offers
import ConfigScript.Proofs.Parser.OperationProgress

/-! # Statements make progress

A statement that is not the end of the file takes the token it starts with, and gives back none of
the text up to it. -/

namespace ConfigScript.Parser

variable {cs : List Char} {s t u : ParserState}

theorem skipStatement_spec (mode : ReadMode) (stop : StopAt) (hs : Ready cs s) :
    Yields (skipStatement mode stop) s fun _ t => Commits cs s t := by
  unfold skipStatement
  refine Yields.bind (skipTo_spec (topCollection_reader _) mode stop hs (Nat.lt_succ_self _))
    fun found t ht => Yields.of_pure ht.commits

theorem error_skipStatement_spec (message : String) (mode : ReadMode) (stop : StopAt)
    (ht : Onward cs s t) :
    Yields (error message >>= fun _ => skipStatement mode stop) t fun _ u => Onward cs s u := by
  refine Yields.bind (error_still _) fun _ u hu => ?_
  refine (skipStatement_spec mode stop (hu.ready ht.ready)).mono fun _ v hv => ?_
  exact (ht.still hu).trans (hv.onward (hu.ready ht.ready))

theorem error_rewind_skip_spec {α : Type} (message : String) (mode : ReadMode) (stop : StopAt)
    (a : α) (ht : Commits cs s t) :
    Yields (error message >>= fun _ => rewind false >>= fun _ =>
      skipStatement mode stop >>= fun _ => pure a) t fun _ u => Commits cs s u := by
  refine Yields.bind (error_still _) fun _ u hu => ?_
  refine Yields.bind (rewind_spec (hu.ready ht.ready) false) fun _ v hv => ?_
  have hc : Commits cs s v := (ht.still hu).within hv.within
  exact Yields.bind (skipStatement_spec _ _ hv.ready) fun _ w hw => Yields.of_pure (hc.trans hw)

theorem endStatement_spec (hs : Ready cs s) :
    Yields endStatement s fun _ t => Commits cs s t := by
  unfold endStatement
  refine Yields.discard_next hs fun token t ht _ => ?_
  split
  · refine Yields.discard_next ht.ready fun token' u hu _ => ?_
    have hc : Commits cs s u := (ht.commits.onward hs).commits hu.commits
    refine Yields.of_ite (fun _ => ?_) fun _ => Yields.of_pure hc
    exact Yields.bind (rewind_spec hu.ready _) fun _ v hv => Yields.of_pure (hc.within hv.within)
  · exact Yields.of_pure ht.commits
  · exact Yields.of_pure ht.commits
  · refine Yields.bind (rewind_spec ht.ready _) fun _ u hu => Yields.of_pure ?_
    exact ht.commits.within hu.within

theorem expectEnd_spec (message : String) (hs : Ready cs s) :
    Yields (expectEnd message) s fun _ t => Onward cs s t := by
  unfold expectEnd
  refine Yields.bind (endStatement_spec hs) fun ended t ht => ?_
  refine Yields.of_ite (fun _ => ?_) fun _ => Yields.of_pure (ht.onward hs)
  exact error_skipStatement_spec _ _ _ (ht.onward hs)

theorem definitionName_spec (mode : ReadMode) (hs : Ready cs s) :
    Yields (definitionName mode) s fun _ t => Onward cs s t := by
  unfold definitionName
  refine Yields.discard_next hs fun token t ht _ => ?_
  refine Yields.of_ite (fun _ => ?_) fun _ => Yields.of_pure (ht.commits.onward hs)
  exact (error_rewind_skip_spec _ _ _ _ ht.commits).mono fun _ u hu => hu.onward hs

/-! ## Values -/

theorem pushValue_spec (n : Node) (hs : Ready cs s) :
    Yields (pushValue n) s fun _ t => Onward cs s t := by
  unfold pushValue
  refine Yields.modify_bind ?_
  have h : Still s { s with root := s.root ++ [n] } := ⟨rfl, id, rfl⟩
  refine Yields.bind (endStatement_spec (h.ready hs)) fun _ t ht => Yields.of_pure ?_
  exact (h.onward hs).trans (ht.onward (h.ready hs))

theorem valueStatement_spec (first : Token) (hs : Ready cs s) (hlt : left s < uncommitted s) :
    Yields (valueStatement first) s fun _ t => Within cs s t ∧ left t < uncommitted s := by
  unfold valueStatement
  refine Yields.bind (rewind_spec hs _) fun _ t ht => ?_
  have hgoes {u : ParserState} (h : Goes cs t u) : Within cs s u ∧ left u < uncommitted s :=
    ⟨ht.within.trans (h.1.within ht.ready), h.2.trans_eq ht.left⟩
  have hd : left t < left t + 1 := Nat.lt_succ_self _
  refine Yields.bind ((topCollection_reader _).finds t ht.ready hd) fun found u hu => ?_
  have hu' : Onward cs t u := hu.commits.onward ht.ready
  split
  · refine (pushValue_spec _ hu'.ready).mono fun _ v hv => hgoes ?_
    exact Goes.trans ⟨hu', hu.lt rfl⟩ hv
  · refine Yields.bind (next_reads hu'.ready true .value) fun token v hv => ?_
    have hg : Goes cs t v := by
      refine ⟨hu'.trans hv.onward, ?_⟩
      by_cases he : token.kind = .endOfFile
      · have := (hv.ended he).1
        have := ht.left
        omega
      · exact (hv.lt he).trans_le hu'.left_le
    refine Yields.of_ite (fun _ => ?_) fun _ => Yields.of_ite (fun _ => ?_) fun _ => ?_
    · exact (pushValue_spec _ hv.ready).mono fun _ w hw => hgoes (hg.trans hw)
    · exact (error_still _).mono fun _ w hw => hgoes (hg.trans (hw.onward hv.ready))
    · exact (error_skipStatement_spec _ _ _ hv.ready.onward).mono fun _ w hw => hgoes (hg.trans hw)

/-! ## Macros -/

theorem defaultValue_spec (hs : Ready cs s) :
    Yields defaultValue s fun _ t => Onward cs s t := by
  unfold defaultValue
  refine Yields.bind (next_reads hs true .paramName) fun token t ht => ?_
  refine Yields.of_ite (fun _ => ?_) fun _ => Yields.of_pure ht.onward
  have hvalue :
      Yields (outsideTemplate (exprOrError topCollection)) t fun _ u => Commits cs t u := by
    refine Yields.of_outside (fun t' ht' => ?_) fun _ v w h g => h.still g
    refine (exprOrError_spec (topCollection_reader _) (ht'.ready ht.ready)
      (Nat.lt_succ_self _)).mono fun n u hu => ?_
    exact (ht'.onward ht.ready).commits hu
  refine Yields.bind hvalue fun n u hu => ?_
  refine Yields.bind (next_reads hu.ready true .paramName) fun after v hv => Yields.of_pure ?_
  exact (ht.onward.trans (hu.onward ht.ready)).trans hv.onward

theorem paramTurn_spec (closer : TokenKind) (p : Template) (hs : Ready cs s) :
    Yields (paramTurn closer p) s fun r t => Carries cs s r t := by
  unfold paramTurn
  refine Yields.bind (next_reads hs true .paramName) fun token t ht => ?_
  refine Yields.of_ite (fun _ => Yields.of_pure ht.onward) fun hend => ?_
  have hg : Goes cs s t := ⟨ht.onward, ht.lt fun he => hend (.inr he)⟩
  have hresume {v : ParserState} (hv : Goes cs s v) (message : String) (q : Template) :
      Yields (error message >>= fun _ => resumeParams closer q) v fun r w => Carries cs s r w :=
    error_resume_spec (topCollection_reader (left s + 1)) message _ closer q.invalidate hv
      (Nat.lt_succ_self _)
  refine Yields.of_ite (fun _ => hresume hg _ _) fun _ => ?_
  refine Yields.bind (defaultValue_spec ht.ready) fun r u hu => ?_
  obtain ⟨default, after⟩ := r
  refine Yields.bind (addReports_still _) fun _ v hv => ?_
  have hgv : Goes cs s v := (hg.trans hu).trans (hv.onward hu.ready)
  refine Yields.of_ite (fun _ => Yields.of_pure hgv.1) fun _ => ?_
  exact Yields.of_ite (fun _ => Yields.of_pure hgv) fun _ => hresume hgv _ _

theorem params_spec (p : Template) (hs : Ready cs s) :
    Yields (params p) s fun _ t => Onward cs s t := by
  unfold params
  split
  · exact Yields.of_pure hs.onward
  · refine Yields.bind (Yields.of_carries hs fun q u hu => paramTurn_spec _ q hu.ready)
      fun q t ht => ?_
    refine Yields.discard_next ht.ready fun token u hu _ => ?_
    have hu' : Onward cs s u := ht.trans (hu.commits.onward ht.ready)
    refine Yields.of_ite (fun _ => Yields.of_pure hu') fun _ => ?_
    refine (error_rewind_skip_spec _ _ _ none hu.commits).mono fun _ v hv => ?_
    exact ht.trans (hv.onward ht.ready)

theorem registerMacro_still (start : Nat) (m : Macro) :
    Yields (registerMacro start m) s fun _ t => Still s t := by
  unfold registerMacro
  refine Yields.get_bind (Yields.bind (addReports_still _) fun _ t ht => ?_)
  exact Yields.of_modify ⟨ht.1, fun h => h, ht.3⟩

theorem macroBody_spec (p : Template) (hs : Ready cs s) :
    Yields (macroBody p) s fun _ t => Onward cs s t := by
  unfold macroBody
  refine Yields.modify_bind ?_
  have h : Still s { s with template := some p } := ⟨rfl, id, rfl⟩
  refine Yields.bind (exprOrError_spec (topCollection_reader _) (h.ready hs) (Nat.lt_succ_self _))
    fun body t ht => ?_
  have ht' : Onward cs s t := (h.onward hs).trans (ht.onward (h.ready hs))
  refine Yields.get_bind (Yields.modify_bind (Yields.modify_bind ?_))
  have hc : Commits cs t { t with template := none, tokenizer := t.tokenizer.discard } :=
    ⟨⟨ht.ready.onText.discard, ht.ready.2, ht.ready.3⟩, Nat.le_of_eq (congrArg (·.rest.length)
      (Tokenizer.committed_discard t.tokenizer))⟩
  refine Yields.bind (expectEnd_spec _ hc.ready) fun _ u hu => ?_
  have hu' : Onward cs s u := (ht'.trans (hc.onward ht.ready)).trans hu
  split
  · exact Yields.of_pure hu'
  · refine Yields.bind (addReports_still _) fun _ v hv => ?_
    split
    · exact (registerMacro_still _ _).mono fun _ w hw => hu'.still (hv.trans hw)
    · exact Yields.of_pure (hu'.still hv)

theorem macroStatement_spec (isFunction : Bool) (start : Nat) (hs : Ready cs s) :
    Yields (macroStatement isFunction start) s fun _ t => Onward cs s t := by
  unfold macroStatement
  refine Yields.bind (definitionName_spec _ hs) fun name t ht => ?_
  split
  · exact Yields.of_pure ht
  · refine Yields.discard_next ht.ready fun token u hu _ => ?_
    have hu' : Onward cs s u := ht.trans (hu.commits.onward ht.ready)
    split
    · refine (error_rewind_skip_spec _ _ _ () hu.commits).mono fun _ v hv => ?_
      exact ht.trans (hv.onward ht.ready)
    · refine Yields.bind (params_spec _ hu.ready) fun found v hv => ?_
      split
      · exact (macroBody_spec _ hv.ready).mono fun _ w hw => (hu'.trans hv).trans hw
      · exact Yields.of_pure (hu'.trans hv)

/-! ## Operators -/

theorem statementWord_ne_endOfFile {token : Token} (h : token.statementWord ≠ "") :
    token.kind ≠ .endOfFile := by
  intro he
  simp [Token.statementWord, he] at h

theorem expect_spec (kind : TokenKind) (hs : Ready cs s) :
    Yields (expect kind) s fun _ t => Onward cs s t := by
  unfold expect
  refine Yields.bind (next_reads hs true .unexpected) fun token t ht => ?_
  refine Yields.of_ite (fun _ => ?_) fun _ => Yields.of_pure ht.onward
  exact error_skipStatement_spec _ _ _ ht.onward

theorem priority_spec (c : ClauseWords) (hs : Ready cs s) :
    Yields (priority c) s fun _ t => Commits cs s t := by
  unfold priority
  refine Yields.discard_next hs fun token t ht _ => ?_
  split
  · refine Yields.bind (expect_spec _ ht.ready) fun _ u hu => Yields.of_pure ?_
    exact ht.commits.within (hu.within ht.ready)
  · exact error_rewind_skip_spec _ _ _ _ ht.commits

theorem endOfClause_spec (c : ClauseWords) (kind : TokenKind) (hs : Ready cs s) :
    Yields (endOfClause c kind) s fun _ t => Within cs s t := by
  unfold endOfClause
  split
  · exact (priority_spec c hs).mono fun _ t ht => (ht.onward hs).within hs
  · exact Yields.bind (rewind_spec hs false) fun _ t ht => Yields.of_pure ht.within
  · exact Yields.bind (rewind_spec hs false) fun _ t ht => Yields.of_pure ht.within
  · exact Yields.bind (rewind_spec hs false) fun _ t ht => Yields.of_pure ht.within
  · exact Yields.of_pure hs.within
  · refine Yields.bind (error_still _) fun _ t ht => ?_
    refine Yields.bind (skipStatement_spec _ _ (ht.ready hs)) fun _ u hu => Yields.of_pure ?_
    exact ((ht.onward hs).trans (hu.onward (ht.ready hs))).within hs

theorem addFixity_still (c : ClauseWords) (f : Fixity) :
    Yields (addFixity c f) s fun _ t => Still s t := by
  unfold addFixity
  split
  · exact Yields.of_pure (.refl s)
  · exact Yields.bind (error_still _) fun _ t ht => Yields.of_pure ht

theorem addProperty_still (c : ClauseWords) (word : String) :
    Yields (addProperty c word) s fun _ t => Still s t := by
  unfold addProperty
  refine Yields.of_ite (fun _ => ?_) fun _ => Yields.of_pure (.refl s)
  exact Yields.bind (error_still _) fun _ t ht => Yields.of_pure ht

theorem clauseWord_spec (c : ClauseWords) (hs : Ready cs s) :
    Yields (clauseWord c) s fun r t => r.Meets (fun _ => Goes cs s t) fun _ => Commits cs s t := by
  unfold clauseWord
  refine Yields.discard_next hs fun token t ht _ => ?_
  extract_lets word
  have hgo (h : word ≠ "") {u : ParserState} (hu : Still t u) : Goes cs s u :=
    Goes.trans ⟨ht.commits.onward hs, ht.lt (statementWord_ne_endOfFile h)⟩ (hu.onward ht.ready)
  split
  · rename_i f hf
    refine Yields.bind (addFixity_still _ _) fun _ u hu => Yields.of_pure (hgo ?_ hu)
    intro he
    simp [he, fixityOfWord?] at hf
  · refine Yields.of_ite (fun hw => ?_) fun _ => Yields.of_ite (fun _ => ?_) fun _ =>
      Yields.of_ite (fun _ => ?_) fun hw => ?_
    · refine Yields.bind (addProperty_still _ _) fun _ u hu => Yields.of_pure (hgo ?_ hu)
      intro he
      simp [he, propertyWords] at hw
    · refine Yields.bind (rewind_spec ht.ready false) fun _ u hu => Yields.of_pure ?_
      exact ht.commits.within hu.within
    · refine Yields.bind (endOfClause_spec _ _ ht.ready) fun _ u hu => Yields.of_pure ?_
      exact ht.commits.within hu
    · refine Yields.bind (error_still _) fun _ u hu => Yields.of_pure (hgo ?_ hu)
      intro he
      simp [he] at hw

theorem clause_spec (hs : Ready cs s) : Yields clause s fun _ t => Commits cs s t := by
  unfold clause
  have hwords : Yields (loop clauseWord {}) s fun _ t => Commits cs s t := by
    refine Yields.of_goes hs fun c u hu => (clauseWord_spec c hu.ready).mono fun r t h => ?_
    cases r with
    | again b => exact h
    | done b => exact hu.commits h
  refine Yields.bind hwords fun c t ht => ?_
  refine Yields.of_ite (fun _ => Yields.of_pure ht) fun _ => ?_
  split
  · exact Yields.bind (error_still _) fun _ u hu => Yields.of_pure (ht.still hu)
  · split
    · exact Yields.bind (error_still _) fun _ u hu => Yields.of_pure (ht.still hu)
    · exact Yields.of_pure ht

theorem clauseTurn_spec (c : Clauses) (hs : Ready cs s) :
    Yields (clauseTurn c) s fun r t => r.Meets (fun _ => Goes cs s t) fun _ => Commits cs s t := by
  unfold clauseTurn
  refine Yields.bind (clause_spec hs) fun found t ht => ?_
  refine Yields.discard_next ht.ready fun token u hu _ => ?_
  refine Yields.of_ite (fun hw => Yields.of_pure ?_) fun _ => Yields.of_pure (ht.trans hu.commits)
  refine ⟨(ht.trans hu.commits).onward hs, ?_⟩
  have hne : token.statementWord ≠ "" := by rw [hw]; decide
  exact (hu.lt (statementWord_ne_endOfFile hne)).trans_le ht.left_le

theorem readAlias_spec (after : Token) (hs : Ready cs s) :
    Yields (readAlias after) s fun _ t => Within cs s t := by
  unfold readAlias
  refine Yields.of_ite (fun _ => ?_) fun _ => ?_
  · refine Yields.bind (next_reads hs true .value) fun token t ht => ?_
    refine Yields.of_ite (fun _ => Yields.of_pure (ht.onward.within hs)) fun _ => ?_
    refine Yields.bind (error_still _) fun _ u hu => ?_
    refine Yields.bind (skipStatement_spec _ _ (hu.ready ht.ready)) fun _ v hv => Yields.of_pure ?_
    exact ((ht.onward.still hu).trans (hv.onward (hu.ready ht.ready))).within hs
  · exact Yields.bind (rewind_spec hs _) fun _ t ht => Yields.of_pure ht.within

theorem registerOperator_still (start : Nat) {o : Operator} (ho : o.Valid) :
    Yields (registerOperator start o) s fun _ t => Still s t := by
  unfold registerOperator
  refine Yields.get_bind ?_
  refine Yields.of_ite (fun _ => ?_) fun _ => Yields.of_ite (fun _ => ?_) fun _ => ?_
  · exact ⟨rfl, fun h => OperatorTable.Valid.add h ho, rfl⟩
  · refine Yields.bind (report_still _) fun _ t ht => Yields.of_modify ?_
    exact ⟨ht.1, fun h => OperatorTable.Valid.replace (ht.operators h) ho, ht.3⟩
  · exact report_still _

theorem registerClauses_still (name : String) (keyword : Bool) (produced : Option String)
    (start : Nat) (cs : List OperatorClause) :
    Yields (registerClauses name keyword produced start cs) s fun _ t => Still s t := by
  induction cs generalizing s with
  | nil => exact Yields.of_pure (.refl s)
  | cons c cs ih =>
    unfold registerClauses
    split
    · rename_i o ho
      refine Yields.bind (registerOperator_still _ (Operator.create_valid ho)) fun _ t ht => ?_
      exact ih.mono fun _ u hu => ht.trans hu
    · exact Yields.bind (report_still _) fun _ t ht => ih.mono fun _ u hu => ht.trans hu

theorem operatorStatement_spec (keyword : Bool) (start : Nat) (hs : Ready cs s) :
    Yields (operatorStatement keyword start) s fun _ t => Onward cs s t := by
  unfold operatorStatement
  refine Yields.bind (definitionName_spec _ hs) fun name t ht => ?_
  split
  · exact Yields.of_pure ht
  · refine Yields.bind (next_reads ht.ready true .plainWord) fun token u hu => ?_
    have hu' : Onward cs s u := ht.trans hu.onward
    refine Yields.of_ite (fun _ => error_skipStatement_spec _ _ _ hu') fun _ => ?_
    have hclauses : Yields (loop clauseTurn {}) u fun _ v => Commits cs u v := by
      refine Yields.of_goes hu.ready fun c v hv => ?_
      refine (clauseTurn_spec c hv.ready).mono fun r w h => ?_
      cases r with
      | again b => exact h
      | done b => exact hv.commits h
    refine Yields.bind hclauses fun c v hv => ?_
    split
    · exact Yields.of_pure (hu'.trans (hv.onward hu.ready))
    · refine Yields.bind (readAlias_spec _ hv.ready) fun found w hw => ?_
      have hw' : Onward cs s w := hu'.trans ((hv.within hw).onward hu.ready)
      obtain ⟨goesOn, produced⟩ := found
      have hend {x : ParserState} (hx : Still w x) (message : String) :
          Yields (expectEnd message) x fun _ y => Onward cs s y :=
        (expectEnd_spec _ (hx.ready hw.ready)).mono fun _ y hy => (hw'.still hx).trans hy
      refine Yields.of_ite (fun _ => Yields.of_ite (fun _ => ?_) fun _ => ?_) fun _ => ?_
      · exact Yields.bind (registerClauses_still _ _ _ _ _) fun _ x hx => hend hx _
      · exact hend (.refl w) _
      · exact Yields.of_pure hw'

/-! ## Withdrawals -/

theorem skipLine_spec (hs : Ready cs s) : Yields skipLine s fun _ t => Onward cs s t := by
  unfold skipLine
  refine Yields.of_carries hs fun _ u hu => ?_
  refine Yields.bind (next_reads hu.ready false .word) fun token t ht => ?_
  refine Yields.of_ite (fun _ => Yields.of_pure ht.onward) fun hend => Yields.of_pure ?_
  exact ⟨ht.onward, ht.lt fun he => hend (.inr he)⟩

theorem forgottenKind?_spec (hs : Ready cs s) :
    Yields forgottenKind? s fun _ t => Onward cs s t := by
  unfold forgottenKind?
  refine Yields.discard_next hs fun token t ht _ => ?_
  have ht' : Onward cs s t := ht.commits.onward hs
  have hback {k : Option MacroKind} : Yields (rewind false >>= fun _ => pure k) t fun _ u =>
      Onward cs s u :=
    Yields.bind (rewind_spec ht.ready false) fun _ u hu =>
      Yields.of_pure ((ht.commits.within hu.within).onward hs)
  have hclose {k : Option MacroKind} (closer : TokenKind) :
      Yields (expect closer >>= fun _ => pure k) t fun _ u => Onward cs s u :=
    Yields.bind (expect_spec closer ht.ready) fun _ u hu => Yields.of_pure (ht'.trans hu)
  split
  · exact hback
  · exact hback
  · exact hback
  · exact hclose _
  · exact hclose _
  · exact hclose _
  · refine Yields.bind (error_still _) fun _ u hu => ?_
    refine Yields.bind (skipLine_spec (hu.ready ht.ready)) fun _ v hv => Yields.of_pure ?_
    exact (ht'.still hu).trans hv

theorem forgetMacro_still (signature : Signature) :
    Yields (forgetMacro signature) s fun _ t => Still s t :=
  Yields.of_modify ⟨rfl, id, rfl⟩

theorem forgetOperator_still (name : String) (keyword : Bool) :
    Yields (forgetOperator name keyword) s fun _ t => Still s t :=
  Yields.of_modify ⟨rfl, fun h => h.remove name keyword, rfl⟩

theorem undefMacro_spec (isFunction : Bool) (hs : Ready cs s) :
    Yields (undefMacro isFunction) s fun _ t => Onward cs s t := by
  unfold undefMacro
  refine Yields.bind (definitionName_spec _ hs) fun name t ht => ?_
  split
  · exact Yields.of_pure ht
  · refine Yields.bind (forgottenKind?_spec ht.ready) fun kind u hu => ?_
    split
    · exact Yields.of_pure (ht.trans hu)
    · exact (forgetMacro_still _).mono fun _ v hv => (ht.trans hu).still hv

theorem undefOperator_spec (keyword : Bool) (hs : Ready cs s) :
    Yields (undefOperator keyword) s fun _ t => Onward cs s t := by
  unfold undefOperator
  refine Yields.bind (definitionName_spec _ hs) fun name t ht => ?_
  split
  · exact Yields.of_pure ht
  · exact (forgetOperator_still _ _).mono fun _ u hu => ht.still hu

theorem finishUndef_spec {p : Parser Unit} (hp : Yields p s fun _ t => Onward cs s t) :
    Yields (finishUndef p) s fun r t => r = .complete ∧ Onward cs s t := by
  unfold finishUndef
  refine Yields.bind hp fun _ t ht => ?_
  refine Yields.bind (expectEnd_spec _ ht.ready) fun _ u hu => Yields.of_pure ?_
  exact ⟨rfl, ht.trans hu⟩

/-- A statement other than the end of the file. -/
def Statement.IsRead : Statement → Prop
  | .endOfFile => False
  | _ => True

theorem undefStatement_spec (start : Nat) (hs : Ready cs s) :
    Yields (undefStatement start) s fun r t => r.IsRead ∧ Onward cs s t := by
  unfold undefStatement
  refine Yields.bind (next_reads hs true .plainWord) fun token t ht => ?_
  have hfinish {p : Parser Unit} (hp : Yields p t fun _ u => Onward cs t u) :
      Yields (finishUndef p) t fun r u => r.IsRead ∧ Onward cs s u :=
    (finishUndef_spec hp).mono fun r u hu => ⟨hu.1 ▸ trivial, ht.onward.trans hu.2⟩
  split
  · exact hfinish (undefMacro_spec _ ht.ready)
  · exact hfinish (undefMacro_spec _ ht.ready)
  · exact hfinish (undefOperator_spec _ ht.ready)
  · exact hfinish (undefOperator_spec _ ht.ready)
  · refine Yields.bind (next_reads ht.ready false .value) fun path u hu => ?_
    have hu' : Onward cs s u := ht.onward.trans hu.onward
    refine Yields.of_ite (fun _ => Yields.of_pure ⟨trivial, hu'⟩) fun _ => ?_
    refine (finishUndef_spec (error_skipStatement_spec _ _ _ hu.ready.onward)).mono
      fun r v hv => ⟨hv.1 ▸ trivial, hu'.trans hv.2⟩
  · refine Yields.bind (error_still _) fun _ u hu => ?_
    refine Yields.bind (skipStatement_spec _ _ (hu.ready ht.ready)) fun _ v hv => Yields.of_pure ?_
    exact ⟨trivial, (ht.onward.still hu).trans (hv.onward (hu.ready ht.ready))⟩

/-! ## Imports -/

theorem useStatement_spec (start : Nat) (hs : Ready cs s) :
    Yields (useStatement start) s fun r t => r.IsRead ∧ Onward cs s t := by
  unfold useStatement
  refine Yields.discard_next hs fun token t ht _ => ?_
  have hpath {isPublic : Bool} {u : ParserState} (hu : Onward cs s u) :
      Yields (next false .value >>= fun token =>
        if token.isLiteral then pure (Statement.importing token.text start (.use isPublic))
        else error "Expected path" >>= fun _ => skipLine >>= fun _ => pure Statement.complete) u
        fun r v => r.IsRead ∧ Onward cs s v := by
    refine Yields.bind (next_reads hu.ready false .value) fun path v hv => ?_
    refine Yields.of_ite (fun _ => Yields.of_pure ⟨trivial, hu.trans hv.onward⟩) fun _ => ?_
    refine Yields.bind (error_still _) fun _ w hw => ?_
    refine Yields.bind (skipLine_spec (hw.ready hv.ready)) fun _ x hx => Yields.of_pure ?_
    exact ⟨trivial, ((hu.trans hv.onward).still hw).trans hx⟩
  refine Yields.of_ite (fun _ => ?_) fun _ => hpath (ht.commits.onward hs)
  refine Yields.bind (rewind_spec ht.ready true) fun _ u hu => hpath ?_
  exact (ht.commits.within hu.within).onward hs

/-- An answer whose operators are checked. -/
def OperatorsChecked (found : Option Definition) : Prop :=
  ∀ d, found = some d → d.operators.Valid

theorem forM_still {α : Type} (xs : List α) {f : α → Parser Unit}
    (hf : ∀ x s, Yields (f x) s fun _ t => Still s t) :
    Yields (xs.forM f) s fun _ t => Still s t := by
  induction xs generalizing s with
  | nil => exact Yields.of_pure (.refl s)
  | cons x xs ih =>
    exact Yields.bind (hf x s) fun _ t ht => ih.mono fun _ u hu => ht.trans hu

theorem copyOperators_valid {d : Definition} (hd : d.operators.Valid) {os : List Operator}
    (ho : ∀ o ∈ os, o.Valid) : (d.copyOperators os).1.operators.Valid := by
  induction os generalizing d with
  | nil => exact hd
  | cons o os ih =>
    exact ih (hd.add (ho o List.mem_cons_self)) fun p hp => ho p (List.mem_cons_of_mem o hp)

theorem copy_valid {d source : Definition} (hd : d.operators.Valid)
    (hs : source.operators.Valid) : (d.copy source).1.operators.Valid := by
  refine copyOperators_valid ?_ hs
  rw [Definition.copyMacros_operators]
  exact hd

theorem finishImport_spec (start : Nat) {found : Option Definition} (hf : OperatorsChecked found)
    (purpose : Purpose) (hs : Ready cs s) :
    Yields (finishImport start found purpose) s fun _ t => Onward cs s t := by
  unfold finishImport
  split
  · split
    · exact Yields.of_pure hs.onward
    · rename_i isPublic d
      refine Yields.get_bind (Yields.modify_bind ?_)
      refine Yields.bind (addReports_still _) fun _ t ht => ?_
      have hcopy : Still s { s with visible := (s.visible.copy d).1 } :=
        ⟨rfl, fun h => copy_valid h (hf d rfl), rfl⟩
      have hend {u : ParserState} (hu : Still s u) :
          Yields (expectEnd "Expected ',' or newline after use statement") u fun _ v =>
            Onward cs s v :=
        (expectEnd_spec _ (hu.ready hs)).mono fun _ v hv => (hu.onward hs).trans hv
      refine Yields.of_ite (fun _ => Yields.modify_bind (hend ?_)) fun _ => hend (hcopy.trans ht)
      exact (hcopy.trans ht).trans ⟨rfl, id, rfl⟩
  · have hend {u : ParserState} (hu : Still s u) :
        Yields expectUndefEnd u fun _ v => Onward cs s v :=
      (expectEnd_spec _ (hu.ready hs)).mono fun _ v hv => (hu.onward hs).trans hv
    split
    · exact hend (.refl s)
    · refine Yields.bind (forM_still _ fun x s => forgetMacro_still x) fun _ t ht => ?_
      refine Yields.bind (forM_still _ fun x s => forgetOperator_still x.1 x.2) fun _ u hu => ?_
      exact hend (ht.trans hu)

/-- A statement is read from the text that is left, or none is left. -/
theorem statement_spec (hs : Ready cs s) :
    Yields statement s fun r t => (r = .endOfFile ∧ Onward cs s t ∧ left t = 0)
      ∨ (r.IsRead ∧ Goes cs s t) := by
  unfold statement
  refine Yields.discard_next hs fun token t ht _ => ?_
  refine Yields.of_ite (fun he => Yields.of_pure (.inl ?_)) fun hne => ?_
  · exact ⟨rfl, ht.commits.onward hs, (ht.ended he).1⟩
  · have hg : Goes cs s t := ⟨ht.commits.onward hs, ht.lt hne⟩
    have hread {p : Parser Unit} (hp : Yields p t fun _ u => Onward cs t u) :
        Yields (p >>= fun _ => pure Statement.complete) t fun r u =>
          (r = .endOfFile ∧ Onward cs s u ∧ left u = 0) ∨ (r.IsRead ∧ Goes cs s u) :=
      Yields.bind hp fun _ u hu => Yields.of_pure (.inr ⟨trivial, hg.trans hu⟩)
    split
    · exact hread (macroStatement_spec _ _ ht.ready)
    · exact hread (macroStatement_spec _ _ ht.ready)
    · exact hread (operatorStatement_spec _ _ ht.ready)
    · exact hread (operatorStatement_spec _ _ ht.ready)
    · refine (undefStatement_spec _ ht.ready).mono fun r u hu => ?_
      exact .inr ⟨hu.1, hg.trans hu.2⟩
    · refine (useStatement_spec _ ht.ready).mono fun r u hu => ?_
      exact .inr ⟨hu.1, hg.trans hu.2⟩
    · have hlt : left t < uncommitted t := by rw [ht.uncommitted]; exact ht.lt hne
      refine Yields.bind (valueStatement_spec token ht.ready hlt) fun _ u hu => Yields.of_pure ?_
      refine .inr ⟨trivial, (ht.commits.within hu.1).onward hs, ?_⟩
      exact hu.2.trans_eq ht.uncommitted

end ConfigScript.Parser
