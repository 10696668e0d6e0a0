import ConfigScript.Parser.Script
import ConfigScript.Proofs.Parser.ToldValues

/-! # Statements are told

Reading a statement keeps up what is on record, and the macros it defines or imports are
trusted. -/

namespace ConfigScript.Parser

variable {told : Bool} {α : Type}

theorem error_skip_keeps (message : String) (mode : ReadMode) (stop : StopAt) :
    Keeps told (error message >>= fun _ => skipStatement mode stop) :=
  Tells.bind (error_tells _) fun _ => skipStatement_keeps _ _

theorem error_rewind_skip_keeps (message : String) (mode : ReadMode) (stop : StopAt)
    {p : Unit → Parser α} (hp : ∀ u, Keeps true (p u)) :
    Keeps told (error message >>= fun _ => rewind false >>= fun _ =>
      skipStatement mode stop >>= p) :=
  Tells.bind (error_tells _) fun _ => Keeps.bind (rewind_keeps _) fun _ =>
    Keeps.bind (skipStatement_keeps _ _) hp

theorem endStatement_keeps : Keeps told endStatement := by
  refine Keeps.bind discard_keeps fun _ => Keeps.bind (next_keeps _ _) fun token => ?_
  split
  · exact passComma_keeps .unexpected (fun token => token.kind == .unexpected) true
  · exact Keeps.pure _
  · exact Keeps.pure _
  · exact Keeps.bind (rewind_keeps _) fun _ => Keeps.pure _

theorem expectEnd_keeps (message : String) : Keeps told (expectEnd message) :=
  Keeps.bind endStatement_keeps fun _ => Keeps.ite (error_skip_keeps _ _ _) (Keeps.pure _)

theorem definitionName_keeps (mode : ReadMode) : Keeps told (definitionName mode) := by
  refine Keeps.bind discard_keeps fun _ => Keeps.bind (next_keeps _ _) fun token => ?_
  exact Keeps.ite (error_rewind_skip_keeps _ _ _ fun _ => Keeps.pure _) (Keeps.pure _)

/-! ## Values -/

theorem pushValue_keeps (n : Node) : Keeps told (pushValue n) := by
  refine Keeps.bind (Keeps.modify fun s h => ⟨h.1, h.2, h.3, h.4⟩) fun _ => ?_
  exact Keeps.bind endStatement_keeps fun _ => Keeps.pure _

theorem valueStatement_keeps (first : Token) : Keeps told (valueStatement first) := by
  refine Keeps.bind (rewind_keeps _) fun _ => Keeps.bind topCollection_keeps fun found => ?_
  split
  · exact pushValue_keeps _
  · refine Keeps.bind (next_keeps _ _) fun token => Keeps.ite (pushValue_keeps _) ?_
    exact Keeps.ite (error_tells _).keeps (error_skip_keeps _ _ _)

/-! ## Macros -/

theorem defaultValue_keeps : Keeps told defaultValue := by
  refine Keeps.bind (next_keeps _ _) fun token => Keeps.ite ?_ (Keeps.pure _)
  refine Keeps.bind (exprOrError_keeps fun _ => topCollection_keeps).outside fun _ => ?_
  exact Keeps.bind (next_keeps _ _) fun _ => Keeps.pure _

theorem resumeParams_told (closer : TokenKind) {t : Template} (ht : t.Trusted) {s : ParserState}
    (h : Told true s) : Yields (resumeParams closer t) s fun r u =>
      r.Meets (fun t => t.Trusted ∧ Told told u) fun t => t.Trusted ∧ Told told u := by
  unfold resumeParams resume
  refine Yields.bind (skipTo_keeps topCollection_keeps _ _ s h) fun found u hu => ?_
  exact Yields.of_ite (fun _ => ⟨ht, hu.weaken⟩) fun _ => ⟨ht, hu.weaken⟩

theorem paramTurn_told (closer : TokenKind) {t : Template} (ht : t.Trusted) {s : ParserState}
    (h : Told told s) : Yields (paramTurn closer t) s fun r u =>
      r.Meets (fun t => t.Trusted ∧ Told told u) fun t => t.Trusted ∧ Told told u := by
  unfold paramTurn
  refine Yields.bind (next_keeps _ _ s h) fun token u hu => ?_
  have hresume {t' : Template} (ht' : t'.Trusted) {v : ParserState} (hv : Told told v)
      (message : String) : Yields (error message >>= fun _ => resumeParams closer t') v fun r w =>
        r.Meets (fun t => t.Trusted ∧ Told told w) fun t => t.Trusted ∧ Told told w :=
    Yields.bind (error_tells message told v hv) fun _ _ hw => resumeParams_told closer ht' hw
  refine Yields.of_ite (fun _ => Yields.of_pure ⟨ht, hu⟩) fun _ => ?_
  refine Yields.of_ite (fun _ => hresume ht hu _) fun _ => ?_
  refine Yields.bind (defaultValue_keeps u hu) fun r v hv => ?_
  obtain ⟨default, after⟩ := r
  have ht' : (t.addParam token.text default token.start).1.Trusted := by
    rw [Template.Trusted, Template.addParam_pending]
    exact ht
  refine Yields.bind (addReports_keeps _ v hv) fun _ w hw => ?_
  refine Yields.of_ite (fun _ => Yields.of_pure ⟨ht', hw⟩) fun _ => ?_
  exact Yields.of_ite (fun _ => Yields.of_pure ⟨ht', hw⟩) fun _ => hresume ht' hw _

theorem params_told {t : Template} (ht : t.Trusted) {s : ParserState} (h : Told told s) :
    Yields (params t) s fun found u => Told told u ∧ ∀ t', found = some t' → t'.Trusted := by
  unfold params
  split
  · refine Yields.of_pure ⟨h, fun t' ht' => ?_⟩
    exact (Option.some.inj ht') ▸ ht
  · rename_i closer _
    have hloop : Yields (loop (paramTurn closer) t) s fun t' u => t'.Trusted ∧ Told told u := by
      refine Yields.get_bind (Yields.of_turns_keep
        (I := fun (t' : Template) u => t'.Trusted ∧ Told told u)
        (fun t' u hu => paramTurn_told closer hu.1 hu.2) (fun t' u hu => ?_) ⟨ht, h⟩)
      exact ⟨hu.1, hu.2.1, hu.2.2, hu.2.3, hu.2.4⟩
    refine Yields.bind hloop fun t' u hu => ?_
    refine Yields.bind (discard_keeps u hu.2) fun _ v hv => ?_
    refine Yields.bind (next_keeps _ _ v hv) fun token w hw => ?_
    refine Yields.of_ite (fun _ => ?_) fun _ => ?_
    · exact Yields.of_pure ⟨hw, fun t'' he => Option.some.inj he ▸ hu.1⟩
    · refine (error_rewind_skip_keeps _ _ _ (fun _ => Keeps.pure none) w hw).and ?_ |>.mono
        fun _ _ h => h
      intro t'' he
      simp at he

theorem registerMacro_keeps (start : Nat) {m : Macro} (hm : m.Trusted) :
    Keeps told (registerMacro start m) := by
  refine Keeps.get_bind fun s hs => Keeps.bind (addReports_keeps _) fun _ => ?_
  exact Keeps.modify fun s' h => ⟨h.1, hs.visible.add hm, h.exported.add hm, h.4⟩

theorem macroBody_keeps {t : Template} (ht : t.Trusted) : Keeps told (macroBody t) := by
  refine Keeps.bind (Keeps.modify fun s h => ⟨h.1, h.2, h.3, ?_⟩) fun _ => ?_
  · intro t' ht'
    exact Option.some.inj ht' ▸ ht
  refine Keeps.bind (exprOrError_keeps fun _ => topCollection_keeps) fun body => ?_
  refine Keeps.get_bind fun s hs => ?_
  refine Keeps.bind (Keeps.modify fun s h => ⟨h.1, h.2, h.3, by simp⟩) fun _ => ?_
  refine Keeps.bind discard_keeps fun _ => Keeps.bind (expectEnd_keeps _) fun _ => ?_
  cases hf : s.template with
  | none => exact Keeps.pure _
  | some t' =>
    simp only [Option.map_some]
    cases hb : t'.finish body with
    | mk found rs =>
      refine Keeps.bind (addReports_keeps _) fun _ => ?_
      cases found with
      | none => exact Keeps.pure _
      | some m => exact registerMacro_keeps _ ((hs.template t' hf).finish hb)

theorem macroStatement_keeps (isFunction : Bool) (start : Nat) :
    Keeps told (macroStatement isFunction start) := by
  refine Keeps.bind (definitionName_keeps _) fun name => ?_
  split
  · exact Keeps.pure _
  · refine Keeps.bind discard_keeps fun _ => Keeps.bind (next_keeps _ _) fun token => ?_
    split
    · refine Tells.bind (error_tells _) fun _ => Keeps.bind (rewind_keeps _) fun _ => ?_
      exact skipStatement_keeps _ _
    · intro s h
      refine Yields.bind (params_told (Template.begin_trusted _ _ _) h) fun found t ht => ?_
      cases found with
      | none => exact Yields.of_pure ht.1
      | some p => exact macroBody_keeps (ht.2 p rfl) t ht.1

/-! ## Operators -/

theorem expect_keeps (kind : TokenKind) : Keeps told (expect kind) :=
  Keeps.bind (next_keeps _ _) fun _ => Keeps.ite (error_skip_keeps _ _ _) (Keeps.pure _)

theorem priority_keeps (c : ClauseWords) : Keeps told (priority c) := by
  refine Keeps.bind discard_keeps fun _ => Keeps.bind (next_keeps _ _) fun token => ?_
  split
  · exact Keeps.bind (expect_keeps _) fun _ => Keeps.pure _
  · exact error_rewind_skip_keeps _ _ _ fun _ => Keeps.pure _

theorem endOfClause_keeps (c : ClauseWords) (kind : TokenKind) :
    Keeps told (endOfClause c kind) := by
  unfold endOfClause
  split
  · exact priority_keeps c
  · exact Keeps.bind (rewind_keeps _) fun _ => Keeps.pure _
  · exact Keeps.bind (rewind_keeps _) fun _ => Keeps.pure _
  · exact Keeps.bind (rewind_keeps _) fun _ => Keeps.pure _
  · exact Keeps.pure _
  · exact Tells.bind (error_tells _) fun _ => Keeps.bind (skipStatement_keeps _ _) fun _ =>
      Keeps.pure _

theorem addFixity_keeps (c : ClauseWords) (f : Fixity) : Keeps told (addFixity c f) := by
  unfold addFixity
  split
  · exact Keeps.pure _
  · exact Tells.bind (error_tells _) fun _ => Keeps.pure _

theorem addProperty_keeps (c : ClauseWords) (word : String) : Keeps told (addProperty c word) :=
  Keeps.ite (Tells.bind (error_tells _) fun _ => Keeps.pure _) (Keeps.pure _)

theorem clauseWord_keeps (c : ClauseWords) : Keeps told (clauseWord c) := by
  refine Keeps.bind discard_keeps fun _ => Keeps.bind (next_keeps _ _) fun token => ?_
  extract_lets word
  split
  · exact Keeps.bind (addFixity_keeps _ _) fun _ => Keeps.pure _
  · refine Keeps.ite (Keeps.bind (addProperty_keeps _ _) fun _ => Keeps.pure _) ?_
    refine Keeps.ite (Keeps.bind (rewind_keeps _) fun _ => Keeps.pure _) ?_
    refine Keeps.ite (Keeps.bind (endOfClause_keeps _ _) fun _ => Keeps.pure _) ?_
    exact Tells.bind (error_tells _) fun _ => Keeps.pure _

theorem clause_keeps : Keeps told clause := by
  refine Keeps.bind (Keeps.loop clauseWord_keeps _) fun c => Keeps.ite (Keeps.pure _) ?_
  split
  · exact Tells.bind (error_tells _) fun _ => Keeps.pure _
  · split
    · exact Tells.bind (error_tells _) fun _ => Keeps.pure _
    · exact Keeps.pure _

theorem clauseTurn_keeps (c : Clauses) : Keeps told (clauseTurn c) := by
  refine Keeps.bind clause_keeps fun found => Keeps.bind discard_keeps fun _ => ?_
  exact Keeps.bind (next_keeps _ _) fun token => Keeps.ite (Keeps.pure _) (Keeps.pure _)

theorem readAlias_keeps (after : Token) : Keeps told (readAlias after) := by
  refine Keeps.ite (Keeps.bind (next_keeps _ _) fun token => Keeps.ite (Keeps.pure _) ?_) ?_
  · exact Tells.bind (error_tells _) fun _ => Keeps.bind (skipStatement_keeps _ _) fun _ =>
      Keeps.pure _
  · exact Keeps.bind (rewind_keeps _) fun _ => Keeps.pure _

theorem registerOperator_keeps (start : Nat) (o : Operator) :
    Keeps told (registerOperator start o) := by
  intro s h
  unfold registerOperator
  refine Yields.get_bind ?_
  refine Yields.of_ite (fun _ => ?_) fun _ => Yields.of_ite (fun _ => ?_) fun _ => ?_
  · exact ⟨h.1, h.2, h.3, h.4⟩
  · refine Yields.bind (report_keeps _ s h) fun _ t ht => Yields.of_modify ?_
    exact ⟨ht.1, ht.2, ht.3, ht.4⟩
  · exact report_keeps _ s h

theorem registerClauses_keeps (name : String) (keyword : Bool) (produced : Option String)
    (start : Nat) (cs : List OperatorClause) :
    Keeps told (registerClauses name keyword produced start cs) := by
  induction cs with
  | nil => exact Keeps.pure _
  | cons c cs ih =>
    unfold registerClauses
    split
    · exact Keeps.bind (registerOperator_keeps _ _) fun _ => ih
    · exact Keeps.bind (report_keeps _) fun _ => ih

theorem operatorStatement_keeps (keyword : Bool) (start : Nat) :
    Keeps told (operatorStatement keyword start) := by
  refine Keeps.bind (definitionName_keeps _) fun name => ?_
  split
  · exact Keeps.pure _
  · refine Keeps.bind (next_keeps _ _) fun token => Keeps.ite (error_skip_keeps _ _ _) ?_
    refine Keeps.bind (Keeps.loop clauseTurn_keeps _) fun c => ?_
    split
    · exact Keeps.pure _
    · refine Keeps.bind (readAlias_keeps _) fun found => ?_
      obtain ⟨goesOn, produced⟩ := found
      refine Keeps.ite (Keeps.ite ?_ (expectEnd_keeps _)) (Keeps.pure _)
      exact Keeps.bind (registerClauses_keeps _ _ _ _ _) fun _ => expectEnd_keeps _

/-! ## Withdrawals -/

theorem forgetMacro_keeps (signature : Signature) : Keeps told (forgetMacro signature) :=
  Keeps.modify fun _ h => ⟨h.1, h.visible.remove _, h.exported.remove _, h.4⟩

theorem forgetOperator_keeps (name : String) (keyword : Bool) :
    Keeps told (forgetOperator name keyword) :=
  Keeps.modify fun _ h => ⟨h.1, h.2, h.3, h.4⟩

theorem skipLine_keeps : Keeps told skipLine :=
  Keeps.loop
    (fun _ => Keeps.bind (next_keeps _ _) fun _ => Keeps.ite (Keeps.pure _) (Keeps.pure _)) _

theorem forgottenKind?_keeps : Keeps told forgottenKind? := by
  refine Keeps.bind discard_keeps fun _ => Keeps.bind (next_keeps _ _) fun token => ?_
  split
  · exact Keeps.bind (rewind_keeps _) fun _ => Keeps.pure _
  · exact Keeps.bind (rewind_keeps _) fun _ => Keeps.pure _
  · exact Keeps.bind (rewind_keeps _) fun _ => Keeps.pure _
  · exact Keeps.bind (expect_keeps _) fun _ => Keeps.pure _
  · exact Keeps.bind (expect_keeps _) fun _ => Keeps.pure _
  · exact Keeps.bind (expect_keeps _) fun _ => Keeps.pure _
  · exact Tells.bind (error_tells _) fun _ => Keeps.bind skipLine_keeps fun _ => Keeps.pure _

theorem undefMacro_keeps (isFunction : Bool) : Keeps told (undefMacro isFunction) := by
  refine Keeps.bind (definitionName_keeps _) fun name => ?_
  split
  · exact Keeps.pure _
  · refine Keeps.bind forgottenKind?_keeps fun kind => ?_
    split
    · exact Keeps.pure _
    · exact forgetMacro_keeps _

theorem undefOperator_keeps (keyword : Bool) : Keeps told (undefOperator keyword) := by
  refine Keeps.bind (definitionName_keeps _) fun name => ?_
  split
  · exact Keeps.pure _
  · exact forgetOperator_keeps _ _

theorem finishUndef_keeps {p : Parser Unit} (hp : Keeps told p) : Keeps told (finishUndef p) :=
  Keeps.bind hp fun _ => Keeps.bind (expectEnd_keeps _) fun _ => Keeps.pure _

theorem undefStatement_keeps (start : Nat) : Keeps told (undefStatement start) := by
  refine Keeps.bind (next_keeps _ _) fun token => ?_
  split
  · exact finishUndef_keeps (undefMacro_keeps _)
  · exact finishUndef_keeps (undefMacro_keeps _)
  · exact finishUndef_keeps (undefOperator_keeps _)
  · exact finishUndef_keeps (undefOperator_keeps _)
  · refine Keeps.bind (next_keeps _ _) fun path => Keeps.ite (Keeps.pure _) ?_
    exact finishUndef_keeps (error_skip_keeps _ _ _)
  · exact Tells.bind (error_tells _) fun _ => Keeps.bind (skipStatement_keeps _ _) fun _ =>
      Keeps.pure _

/-! ## Imports -/

theorem useStatement_keeps (start : Nat) : Keeps told (useStatement start) := by
  refine Keeps.bind discard_keeps fun _ => Keeps.bind (next_keeps _ _) fun token => ?_
  extract_lets isPublic path
  have hpath (u : Unit) : Keeps told (path u) := by
    refine Keeps.bind (next_keeps _ _) fun token => Keeps.ite (Keeps.pure _) ?_
    exact Tells.bind (error_tells _) fun _ => Keeps.bind skipLine_keeps fun _ => Keeps.pure _
  exact Keeps.ite (Keeps.bind (rewind_keeps _) hpath) (hpath ())

/-- An answer whose macros are trusted. -/
def MacrosTrusted (found : Option Definition) : Prop :=
  ∀ d, found = some d → d.macros.Trusted

theorem forM_keeps (xs : List α) {f : α → Parser Unit} (hf : ∀ x, Keeps told (f x)) :
    Keeps told (xs.forM f) := by
  induction xs with
  | nil => exact Keeps.pure _
  | cons x xs ih => exact Keeps.bind (hf x) fun _ => ih

theorem finishImport_keeps (start : Nat) {found : Option Definition} (hf : MacrosTrusted found)
    (purpose : Purpose) : Keeps told (finishImport start found purpose) := by
  unfold finishImport
  split
  · split
    · exact Keeps.pure _
    · rename_i isPublic d
      have hd : d.macros.Trusted := hf d rfl
      refine Keeps.get_bind fun s hs => Keeps.bind (Keeps.modify fun _ h =>
        ⟨h.1, copy_trusted hs.visible hd, h.3, h.4⟩) fun _ => ?_
      refine Keeps.bind (addReports_keeps _) fun _ => ?_
      refine Keeps.ite (Keeps.bind (Keeps.modify fun _ h => ?_) fun _ => expectEnd_keeps _)
        (expectEnd_keeps _)
      exact ⟨h.1, h.2, copy_trusted h.exported hd, h.4⟩
  · split
    · exact expectEnd_keeps _
    · refine Keeps.bind (forM_keeps _ forgetMacro_keeps) fun _ => ?_
      refine Keeps.bind (forM_keeps _ fun x => forgetOperator_keeps x.1 x.2) fun _ => ?_
      exact expectEnd_keeps _

theorem takeAnswer_keeps (start : Nat) (purpose : Purpose) {found : Option Definition}
    (hf : MacrosTrusted found) (rs : List Report) :
    Keeps told (takeAnswer start purpose found rs) :=
  Keeps.bind (addReports_keeps _) fun _ => finishImport_keeps _ hf _

theorem statement_keeps : Keeps told statement := by
  refine Keeps.bind discard_keeps fun _ => Keeps.bind (next_keeps _ _) fun token => ?_
  refine Keeps.ite (Keeps.pure _) ?_
  split
  · exact Keeps.bind (macroStatement_keeps _ _) fun _ => Keeps.pure _
  · exact Keeps.bind (macroStatement_keeps _ _) fun _ => Keeps.pure _
  · exact Keeps.bind (operatorStatement_keeps _ _) fun _ => Keeps.pure _
  · exact Keeps.bind (operatorStatement_keeps _ _) fun _ => Keeps.pure _
  · exact undefStatement_keeps _
  · exact useStatement_keeps _
  · exact Keeps.bind (valueStatement_keeps _) fun _ => Keeps.pure _

end ConfigScript.Parser
