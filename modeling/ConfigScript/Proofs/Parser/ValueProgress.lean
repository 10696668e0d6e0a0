import ConfigScript.Parser.Value
import ConfigScript.Proofs.Parser.Progress

/-! # Reading values makes progress

Every reader of a value commits what had been read before it. One that finds something leaves less
text. Skipping stops at the closer that it found, so that the collection around it can end. -/

namespace ConfigScript.Parser

variable {cs : List Char} {s t u : ParserState}

/-! ## Expansion -/

theorem resolveParam?_still (n : Node) : Yields (resolveParam? n) s fun _ t => Still s t := by
  unfold resolveParam?
  refine Yields.get_bind ?_
  split
  · exact Yields.of_pure (.refl s)
  · refine Yields.modify_bind ?_
    exact Yields.bind (addReports_still _) fun _ t h => Yields.of_pure ⟨h.1, h.2, h.3⟩

theorem expanded_still (name : String) (position : Nat) (r : MacroResult) :
    Yields (expanded name position r) s fun _ t => Still s t := by
  unfold expanded
  split
  · exact Yields.of_pure (.refl s)
  · exact substitute_still
  · exact Yields.bind (report_still _) fun _ t h => substitute_still.mono fun _ u g => h.trans g
  · exact Yields.bind (report_still _) fun _ t h => substitute_still.mono fun _ u g => h.trans g

theorem callMacro_still (n : Node) (kind : MacroKind) (position : Nat) :
    Yields (callMacro n kind position) s fun _ t => Still s t := by
  unfold callMacro
  refine Yields.get_bind (Yields.of_ite (fun _ => Yields.of_pure (.refl s)) fun _ => ?_)
  refine Yields.bind (addReports_still _) fun _ t ht => ?_
  split
  · exact substitute_still.mono fun _ u hu => ht.trans hu
  · exact Yields.modify_bind (Yields.of_pure ⟨ht.1, ht.2, ht.3⟩)
  · refine Yields.bind (addReports_still _) fun _ u hu => ?_
    exact (expanded_still _ _ _).mono fun _ v hv => (ht.trans hu).trans hv

theorem primitiveValue_still (token : Token) :
    Yields (primitiveValue token) s fun _ t => Still s t := by
  unfold primitiveValue
  refine Yields.of_ite (fun _ => Yields.of_pure (.refl s)) fun _ => ?_
  refine Yields.bind (resolveParam?_still _) fun found t ht => ?_
  split
  · exact Yields.of_pure ht
  · exact (callMacro_still _ _ _).mono fun _ u hu => ht.trans hu

theorem accessorCall_still (a b : Node) (o : Operator) (position : Nat) :
    Yields (accessorCall a b o position) s fun _ t => Still s t := by
  unfold accessorCall
  refine Yields.bind (noteAccess_still b) fun _ t ht => ?_
  split
  · exact (callMacro_still _ _ _).mono fun _ _ hu => ht.trans hu
  · exact (callMacro_still _ _ _).mono fun _ _ hu => ht.trans hu
  · exact (callMacro_still _ _ _).mono fun _ _ hu => ht.trans hu

theorem namedValue_still (token : Token) (kind : MacroKind) (n : Node) :
    Yields (namedValue token kind n) s fun v t => v.isSome = true ∧ Still s t := by
  unfold namedValue
  refine Yields.of_ite (fun _ => Yields.of_pure ⟨rfl, .refl s⟩) fun _ => ?_
  refine Yields.bind (resolveParam?_still _) fun found t ht => ?_
  split
  · exact Yields.of_pure ⟨rfl, ht⟩
  · exact Yields.bind (callMacro_still _ _ _) fun _ u hu => Yields.of_pure ⟨rfl, ht.trans hu⟩

/-! ## Readers of collections -/

/-- What a reader that may find nothing comes to. -/
structure Finds (cs : List Char) (s : ParserState) (found : Option Node) (t : ParserState) :
    Prop where
  commits : Commits cs s t
  lt : found.isSome = true → left t < left s

/-- A reader of collections that copes with less than `d` characters. It finds a collection where
an opening bracket is kept. -/
structure Reader (cs : List Char) (d : Nat) (inner : Parser (Option Node)) : Prop where
  finds : ∀ s, Ready cs s → left s < d → Yields inner s (Finds cs s)
  opens : ∀ s kind, Ready cs s → left s < d → isOpening kind = true → Awaits kind s →
    Yields inner s fun v _ => v.isSome = true

variable {d : Nat} {inner : Parser (Option Node)}

theorem Onward.finds {found : Option Node} (h : Onward cs s t) (g : Finds cs t found u) :
    Finds cs s found u :=
  ⟨h.commits g.commits, fun hf => (g.lt hf).trans_le h.left_le⟩

theorem Finds.still {found : Option Node} (h : Finds cs s found t) (g : Still t u) :
    Finds cs s found u :=
  ⟨h.commits.still g, fun hf => g.left.trans_lt (h.lt hf)⟩

theorem Yields.of_outside {α : Type} {p : Parser α} {Q : α → ParserState → Prop}
    (hp : ∀ s', Still s s' → Yields p s' Q)
    (hq : ∀ a t u, Q a t → Still t u → Q a u) : Yields (outsideTemplate p) s Q :=
  Yields.of_outsideTemplate ((hp { s with template := none } ⟨rfl, id, rfl⟩).mono
    fun a t h => hq a t _ h ⟨rfl, id, rfl⟩)

/-! ## Recovery -/

/-- What skipping comes to: it ends at the closer, behind another stop, or at the end of the
text. -/
structure Skips (cs : List Char) (stop : StopAt) (s : ParserState) (found : Bool)
    (t : ParserState) : Prop where
  commits : Commits cs s t
  stopped : found = false → left t < left s ∨ left t = 0
  closed : ∀ closer, found = true → stop.closer = some closer → Took closer t

theorem Onward.skips {stop : StopAt} {found : Bool} (h : Onward cs s t)
    (g : Skips cs stop t found u) : Skips cs stop s found u := by
  refine ⟨h.commits g.commits, fun hf => ?_, g.closed⟩
  have := h.left_le
  have := g.stopped hf
  omega

theorem Skips.still {stop : StopAt} {found : Bool} (h : Skips cs stop s found t) (g : Still t u) :
    Skips cs stop s found u := by
  refine ⟨h.commits.still g, fun hf => ?_, fun closer hf hc => ?_⟩
  · rw [g.left]
    exact h.stopped hf
  · rw [Took, g.tokenizer]
    exact h.closed closer hf hc

theorem skipTurn_spec (hr : Reader cs d inner) (mode : ReadMode) (stop : StopAt) (b : Bool)
    (hs : Ready cs s) (hd : left s < d) :
    Yields (skipTurn inner mode stop b) s fun r t =>
      r.Meets (fun _ => Goes cs s t) fun found => Skips cs stop s found t := by
  unfold skipTurn
  refine Yields.discard_next hs fun token t ht hk => ?_
  have hgo (hne : token.kind ≠ .endOfFile) : Goes cs s t := ⟨ht.commits.onward hs, ht.lt hne⟩
  have hstop (hne : token.kind ≠ .endOfFile) : Skips cs stop s false t :=
    ⟨ht.commits, fun _ => .inl (ht.lt hne), by simp⟩
  refine Yields.of_ite (fun hb => ?_) fun hb => Yields.of_ite (fun he => ?_) fun he =>
    Yields.of_ite (fun hc => ?_) fun hc => Yields.of_ite (fun ho => ?_) fun ho =>
    Yields.of_ite (fun hf => ?_) fun hf => ?_
  · have hne : token.kind ≠ .endOfFile := by simp [hb]
    split
    · exact Yields.of_pure (hstop hne)
    · exact Yields.of_pure (hgo hne)
  · exact Yields.of_pure ⟨ht.commits, fun _ => .inr (ht.ended he).1, by simp⟩
  · split
    · exact Yields.of_pure (hstop he)
    · exact Yields.of_pure (hgo he)
  · -- the opening bracket is given back, so the collection behind it is found
    refine Yields.bind ((rewind_spec ht.ready false).and (rewind_awaits (hk rfl))) fun _ u hu => ?_
    obtain ⟨hu, ha⟩ := hu
    have hleft : left u = left s := hu.left.trans ht.uncommitted
    have hinner : Yields (outsideTemplate inner) u fun v w => Finds cs u v w ∧ v.isSome = true := by
      refine Yields.of_outside (fun u' hu' => ?_) fun v w w' h g => ⟨h.1.still g, h.2⟩
      have hd' : left u' < d := by rw [hu'.left, hleft]; exact hd
      refine ((hr.finds u' (hu'.ready hu.ready) hd').mono fun v w h => ?_).and
        (hr.opens u' token.kind (hu'.ready hu.ready) hd' ho ?_)
      · exact (hu'.onward hu.ready).finds h
      · rw [Awaits, hu'.tokenizer]
        exact ha
    refine Yields.bind hinner fun v w hw => Yields.of_pure ⟨?_, hleft ▸ hw.1.lt hw.2⟩
    exact (ht.commits.within hu.within |>.trans hw.1.commits).onward hs
  · refine Yields.of_pure ⟨ht.commits, by simp, fun closer _ hcl => ?_⟩
    rw [hf, Option.some.injEq] at hcl
    exact hcl ▸ hk rfl
  · exact Yields.of_pure (hgo he)

theorem skipTo_spec (hr : Reader cs d inner) (mode : ReadMode) (stop : StopAt) (hs : Ready cs s)
    (hd : left s < d) : Yields (skipTo inner mode stop) s (Skips cs stop s) := by
  unfold skipTo
  refine Yields.get_bind (Yields.modify_bind ?_)
  have hs' : Ready cs { s with recovering := true } := ⟨hs.1, hs.2, hs.3⟩
  refine Yields.bind (Yields.of_goes (Q := Skips cs stop s) hs' fun b u hu => ?_) fun b t ht => ?_
  · refine (skipTurn_spec hr mode stop b hu.ready (hu.left_le.trans_lt hd)).mono fun r t h => ?_
    cases r with
    | again b => exact h
    | done b => exact Onward.skips (s := s) ⟨hu.1, hu.2, hu.3⟩ h
  · exact Yields.modify_bind (Yields.of_pure (ht.still ⟨rfl, id, rfl⟩))

/-! ## Values -/

theorem expr_spec (hr : Reader cs d inner) (hs : Ready cs s) (hd : left s < d) :
    Yields (expr inner) s (Finds cs s) := by
  unfold expr
  refine Yields.modify_bind ?_
  have hleft : left { s with tokenizer := s.tokenizer.discard } = left s := rfl
  refine Yields.bind (hr.finds _ hs.discard (hleft.trans_lt hd)) fun found t ht => ?_
  have hc : Commits cs s t := ⟨ht.commits.ready, ht.commits.le⟩
  split
  · exact Yields.of_pure ⟨hc, ht.lt⟩
  · refine Yields.bind (rewind_spec hc.ready true) fun _ u hu => ?_
    have hcu : Commits cs s u := hc.within hu.within
    refine Yields.bind (next_reads hu.ready true .value) fun token v hv => ?_
    have hcv : Commits cs s v := hcu.within (hv.onward.within hu.ready)
    refine Yields.of_ite (fun hl => ?_) fun _ => ?_
    · have hlt : left v < left s := (hv.lt_of_isLiteral hl).trans_le hcu.left_le
      refine Yields.bind (primitiveValue_still token) fun n w hw => ?_
      exact Yields.of_pure ⟨hcv.still hw, fun _ => hw.left.trans_lt hlt⟩
    · refine Yields.bind (error_still _) fun _ w hw => ?_
      refine Yields.bind (rewind_spec (hcv.still hw).ready true) fun _ x hx => ?_
      exact Yields.of_pure ⟨(hcv.still hw).within hx.within, by simp⟩

theorem exprOrError_spec (hr : Reader cs d inner) (hs : Ready cs s) (hd : left s < d) :
    Yields (exprOrError inner) s fun _ t => Commits cs s t := by
  unfold exprOrError
  refine Yields.bind (expr_spec hr hs hd) fun found t ht => ?_
  split
  · exact Yields.of_pure ht.commits
  · exact substitute_still.mono fun _ u hu => ht.commits.still hu

theorem resume_spec {α : Type} (hr : Reader cs d inner) (mode : ReadMode) (closer : TokenKind)
    (a : α) (hs : Ready cs s) (hd : left s < d) :
    Yields (resume inner mode closer a) s fun _ t => Onward cs s t := by
  unfold resume
  refine Yields.bind (skipTo_spec hr mode _ hs hd) fun found t ht => ?_
  split
  · exact Yields.of_pure (ht.commits.onward hs)
  · exact Yields.of_pure (ht.commits.onward hs)

theorem error_resume_spec {α : Type} (hr : Reader cs d inner) (message : String) (mode : ReadMode)
    (closer : TokenKind) (a : α) (ht : Goes cs s t) (hd : left s < d) :
    Yields (error message >>= fun _ => resume inner mode closer a) t fun r u =>
      Carries cs s r u := by
  refine Yields.bind (error_still _) fun _ u hu => ?_
  have hg : Goes cs s u := ht.trans (hu.onward ht.1.ready)
  refine (resume_spec hr mode closer a hg.1.ready (hg.2.trans hd)).mono fun r v hv => ?_
  exact (hg.trans hv).carries r

theorem error_done_spec {α : Type} (message : String) (a : α) (ht : Onward cs s t) :
    Yields (error message >>= fun _ => pure (Turn.done a)) t fun r u => Carries cs s r u :=
  Yields.bind (error_still _) fun _ _ hu => Yields.of_pure (ht.still hu)

theorem error_again_spec {α : Type} (message : String) (a : α) (ht : Goes cs s t) :
    Yields (error message >>= fun _ => pure (Turn.again a)) t fun r u => Carries cs s r u :=
  Yields.bind (error_still _) fun _ _ hu => Yields.of_pure (ht.trans (hu.onward ht.1.ready))

theorem passComma_spec {α : Type} {mode : ReadMode} (again : Token → Bool) (a : α)
    (ht : Goes cs s t) :
    Yields (discard >>= fun _ => next true mode >>= fun token =>
      if token.kind != .comma then rewind (again token) >>= fun _ => pure (Turn.again a)
      else pure (Turn.again a)) t fun r u => Carries cs s r u := by
  refine Yields.discard_next ht.1.ready fun token u hu _ => ?_
  refine Yields.of_ite (fun _ => ?_) fun _ => ?_
  · refine Yields.bind (rewind_spec hu.ready _) fun _ v hv => Yields.of_pure ?_
    exact ht.trans ((hu.commits.within hv.within).onward ht.1.ready)
  · exact Yields.of_pure (ht.trans (hu.commits.onward ht.1.ready))

/-! ## Objects -/

theorem reportDuplicate_still (key : String) (position : Nat) :
    Yields (reportDuplicate key position) s fun _ t => Still s t :=
  Yields.get_bind (report_still _)

theorem objectSeparator_spec (hr : Reader cs d inner) (props : List (String × Node))
    (hs : Ready cs s) (hd : left s < d) :
    Yields (objectSeparator inner props) s fun r t => Carries cs s r t := by
  unfold objectSeparator
  refine Yields.bind (next_reads hs false .unexpected) fun token t ht => ?_
  have hgo (hne : token.kind ≠ .endOfFile) : Goes cs s t := ⟨ht.onward, ht.lt hne⟩
  split
  · rename_i hk
    exact passComma_spec (fun _ => false) props (hgo (by simp [hk]))
  · rename_i hk
    exact Yields.of_pure (hgo (by simp [hk]))
  · exact error_done_spec _ props ht.onward
  · exact Yields.of_pure ht.onward
  · rename_i _ _ hk _
    exact error_resume_spec hr _ _ _ props (hgo hk) hd

theorem objectProperty_spec (hr : Reader cs d inner) (key : Token) (props : List (String × Node))
    (hs : Ready cs s) (hd : left s < d) :
    Yields (objectProperty inner key props) s fun _ t => Onward cs s t := by
  unfold objectProperty
  refine Yields.discard_next hs fun token t ht _ => ?_
  refine Yields.of_ite (fun _ => ?_) fun _ => ?_
  · refine Yields.bind (error_still _) fun _ u hu => ?_
    refine Yields.bind (rewind_spec (hu.ready ht.ready) false) fun _ v hv => ?_
    have hc : Commits cs s v := (ht.commits.still hu).within hv.within
    refine (resume_spec hr _ _ props hv.ready (hc.left_le.trans_lt hd)).mono fun r w hw => ?_
    exact (hc.onward hs).trans hw
  · have hvalue {u : ParserState} (hu : Onward cs s u) (duplicate : Bool) :
        Yields (exprOrError inner >>= fun value =>
          noteLost (if duplicate then value.marks else []) >>= fun _ => objectSeparator inner
          (if duplicate then props else Properties.put key.text value props)) u
          fun _ w => Onward cs s w := by
      refine Yields.bind (exprOrError_spec hr hu.ready (hu.left_le.trans_lt hd)) fun n v hv => ?_
      refine Yields.bind (noteLost_still _) fun _ v' hs' => ?_
      have hv' : Onward cs s v' := (hu.trans (hv.onward hu.ready)).still hs'
      refine (objectSeparator_spec hr _ hv'.ready (hv'.left_le.trans_lt hd)).mono fun r w hw => ?_
      exact hv'.trans hw.onward
    have ht' : Onward cs s t := ht.commits.onward hs
    refine Yields.of_ite (fun _ => ?_) fun _ => ?_
    · refine Yields.bind (reportDuplicate_still _ _) fun _ u hu => ?_
      exact hvalue (ht'.still hu) _
    · exact hvalue ht' _

theorem objectEntry_spec (hr : Reader cs d inner) (props : List (String × Node))
    (hs : Ready cs s) (hd : left s < d) :
    Yields (objectEntry inner props) s fun r t => Carries cs s r t := by
  unfold objectEntry
  refine Yields.bind (next_reads hs true .key) fun key t ht => ?_
  split
  · exact error_done_spec _ props ht.onward
  · exact Yields.of_pure ht.onward
  · rename_i hk
    exact error_again_spec _ props ⟨ht.onward, ht.lt (by simp [hk])⟩
  · rename_i hk _ _
    have hg : Goes cs s t := ⟨ht.onward, ht.lt hk⟩
    refine Yields.of_ite (fun _ => ?_) fun _ => ?_
    · refine (objectProperty_spec hr key props ht.ready (hg.2.trans hd)).mono fun r u hu => ?_
      exact (hg.trans hu).carries r
    · exact error_resume_spec hr _ _ _ props hg hd

theorem object_spec (hr : Reader cs d inner) (name : String) (start : Nat) (hs : Ready cs s)
    (hd : left s < d) : Yields (object inner name start) s fun _ t => Onward cs s t := by
  unfold object
  refine Yields.bind (Yields.of_carries hs fun props u hu => ?_) fun _ t ht => Yields.of_pure ht
  exact objectEntry_spec hr props hu.ready (hu.left_le.trans_lt hd)

/-! ## Lists -/

theorem listSeparator_spec (hr : Reader cs d inner) (items : List Node) (hs : Ready cs s)
    (hd : left s < d) : Yields (listSeparator inner items) s fun r t => Carries cs s r t := by
  unfold listSeparator
  refine Yields.bind (next_reads hs false .unexpected) fun token t ht => ?_
  have hgo (hne : token.kind ≠ .endOfFile) : Goes cs s t := ⟨ht.onward, ht.lt hne⟩
  split
  · rename_i hk
    exact passComma_spec (fun token => token.kind == .unexpected) items (hgo (by simp [hk]))
  · rename_i hk
    exact Yields.of_pure (hgo (by simp [hk]))
  · exact error_done_spec _ items ht.onward
  · exact Yields.of_pure ht.onward
  · rename_i _ _ hk _
    exact error_resume_spec hr _ _ _ items (hgo hk) hd

theorem listEntry_spec (hr : Reader cs d inner) (items : List Node) (hs : Ready cs s)
    (hd : left s < d) : Yields (listEntry inner items) s fun r t => Carries cs s r t := by
  unfold listEntry
  refine Yields.discard_next hs fun token t ht _ => ?_
  have ht' : Onward cs s t := ht.commits.onward hs
  split
  · exact error_done_spec _ items ht'
  · exact Yields.of_pure ht'
  · rename_i hk
    exact error_again_spec _ items ⟨ht', ht.lt (by simp [hk])⟩
  · refine Yields.bind (rewind_spec ht.ready _) fun _ u hu => ?_
    have hu' : Onward cs s u := (ht.commits.within hu.within).onward hs
    refine Yields.bind (expr_spec hr hu.ready (hu'.left_le.trans_lt hd)) fun found v hv => ?_
    have hv' : Onward cs s v := hu'.trans (hv.commits.onward hu.ready)
    have hd' : left v < d := hv'.left_le.trans_lt hd
    split
    · exact (listSeparator_spec hr _ hv.commits.ready hd').mono fun r w hw => hv'.carries hw
    · exact (listSeparator_spec hr _ hv.commits.ready hd').mono fun r w hw => hv'.carries hw

theorem list_spec (hr : Reader cs d inner) (name : String) (start : Nat) (hs : Ready cs s)
    (hd : left s < d) : Yields (list inner name start) s fun _ t => Onward cs s t := by
  unfold list
  refine Yields.bind (Yields.of_carries hs fun items u hu => ?_) fun _ t ht => Yields.of_pure ht
  exact listEntry_spec hr items hu.ready (hu.left_le.trans_lt hd)

end ConfigScript.Parser
