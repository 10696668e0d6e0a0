import ConfigScript.Parser.Script
import ConfigScript.Proofs.Macro.Evaluation
import ConfigScript.Proofs.Parser.AccountValues

/-! # Operations that are not found again

A finished body is searched for the marks that were given while it was read. If nothing else is
wrong with a macro's statement, the operations that are not found are those of the marks that were
left out: on the right of an accessor, and in the values of repeated properties. -/

namespace ConfigScript

/-! ## Where marks are found -/

section

variable {pending : List (Nat × Edit)} {nodes : List (Path × Node)}

theorem locate_length (pending : List (Nat × Edit)) (nodes : List (Path × Node)) :
    (Template.locate pending nodes).1.length + (Template.locate pending nodes).2.length
      = pending.length := by
  induction nodes generalizing pending with
  | nil => simp [Template.locate]
  | cons p ps ih =>
    obtain ⟨path, n⟩ := p
    rw [Template.locate]
    cases hf : n.mark.bind fun m => pending.find? (·.1 == m) with
    | none => exact ih pending
    | some q =>
      obtain ⟨k, hk, hfind⟩ := Option.bind_eq_some_iff.mp hf
      have hq : q.1 = k := by simpa using List.find?_some hfind
      have herase := List.length_eraseP_add_one (p := fun p => p.1 == q.1)
        (List.mem_of_find?_eq_some hfind) (beq_self_eq_true q.1)
      have hrest := ih (pending.eraseP fun p => p.1 == q.1)
      simp only [List.length_cons]
      omega

theorem editsOf_length (h : ∀ m ∈ nodes.filterMap fun p => p.2.mark, m ∈ pending.map Prod.fst) :
    (editsOf pending nodes).length = (nodes.filterMap fun p => p.2.mark).length := by
  induction nodes with
  | nil => rfl
  | cons p ps ih =>
    rw [editsOf, List.filterMap_cons, List.filterMap_cons]
    rw [List.filterMap_cons] at h
    cases hm : p.2.mark with
    | none =>
      rw [hm] at h
      exact ih h
    | some m =>
      rw [hm] at h
      obtain ⟨hmem, hps⟩ := List.forall_mem_cons.mp h
      obtain ⟨q, hq, rfl⟩ := List.mem_map.mp hmem
      cases hf : pending.find? (·.1 == q.1) with
      | none => simpa using List.find?_eq_none.mp hf q hq
      | some r =>
        simp only [pendingFor?, Option.bind_some, hf, Option.map_some, List.length_cons]
        exact congrArg (· + 1) (ih hps)

/-- If the marks of a tree are distinct and all pending, the others are left. -/
theorem locate_left {body : Node} (hm : body.marks.Nodup)
    (h : ∀ m ∈ body.marks, m ∈ pending.map Prod.fst) :
    body.marks.length + (Template.locate pending body.postOrder).2.length = pending.length := by
  have hlength := locate_length pending body.postOrder
  rw [locate_eq_editsOf hm, editsOf_length h] at hlength
  exact hlength

end

/-! ## Finishing a template -/

/-- Whether a report is about operations that are not found again. -/
def Report.isUnresolved (r : Report) : Bool :=
  r.isError && "Unresolved macro operation: ".toList.isPrefixOf r.message.toList

theorem isUnresolved_invalidMacro (name reason : String) (position : Option Nat) :
    (Report.errorAt (Fault.invalidMacro name reason).message position).isUnresolved = false := by
  have hmessage : (Fault.invalidMacro name reason).message
      = s!"invalid macro '{name}': {reason}" := rfl
  have hhead : (Fault.invalidMacro name reason).message.toList.head? = some 'i' := by
    rw [hmessage]
    simp only [String.toList_append, List.head?_append]
    rfl
  rw [Report.isUnresolved, Bool.and_eq_false_iff, Bool.eq_false_iff (b := List.isPrefixOf _ _),
    ne_eq, List.isPrefixOf_iff_prefix]
  refine .inr fun ⟨rest, hrest⟩ => ?_
  have hsame := congrArg List.head? hrest
  rw [Report.errorAt, hhead] at hsame
  exact absurd hsame (by simp)

theorem invalidMacro_of_check {ps : List Param} {h : MacroHead} {f : Fault}
    (hf : (do checkParams ps; Macro.checkHead h) = .error f) :
    ∃ name reason, f = .invalidMacro name reason := by
  cases hp : checkParams ps with
  | error g =>
    rw [hp] at hf
    have hg : g = f := Except.error.inj hf
    unfold checkParams at hp
    split at hp
    · simp at hp
    · exact ⟨_, _, hg ▸ (Except.error.inj hp).symm⟩
  | ok _ =>
    rw [hp] at hf
    have hhead : Macro.checkHead h = .error f := hf
    unfold Macro.checkHead at hhead
    simp only at hhead
    split at hhead
    · exact ⟨_, _, (Except.error.inj hhead).symm⟩
    · split at hhead
      · exact ⟨_, _, (Except.error.inj hhead).symm⟩
      · simp at hhead

/-- Nothing has been marked yet. -/
structure Template.Unmarked (t : Template) : Prop where
  pending : t.pending = []
  nextMark : t.nextMark = 0

theorem Template.Unmarked.addParam {t : Template} (h : t.Unmarked) (name : String)
    (default : Option Node) (position : Nat) : (t.addParam name default position).1.Unmarked := by
  unfold Template.addParam
  split
  · exact ⟨h.1, h.2⟩
  · split
    · exact ⟨h.1, h.2⟩
    · split
      · exact ⟨h.1, h.2⟩
      · exact ⟨h.1, h.2⟩

theorem Template.addParam_invalid (t : Template) (name : String) (default : Option Node)
    (position : Nat) (h : hasError (t.addParam name default position).2 = false) :
    (t.addParam name default position).1.invalid = t.invalid := by
  revert h
  unfold Template.addParam
  split
  · exact nofun
  · split
    · exact nofun
    · split
      · exact nofun
      · cases t.kind.isPositional && default.isNone && t.optionalSeen with
        | true => exact nofun
        | false => exact fun _ => Bool.or_false _

/-- A template that is not invalid reports operations as unresolved just if some are left. -/
theorem finish_unresolved_iff {t : Template} (ht : t.invalid = false) (body : Node) :
    (t.finish body).2.any Report.isUnresolved = true
      ↔ (Template.locate t.pending body.postOrder).2 ≠ [] := by
  unfold Template.finish
  rw [ht, if_neg Bool.false_ne_true]
  simp only
  cases hleft : (Template.locate t.pending body.postOrder).2 with
  | cons q qs => simp [Report.isUnresolved, Report.errorAt, Report.isError]
  | nil =>
    simp only [List.isEmpty_nil, Bool.not_true, Bool.false_eq_true, if_false, ne_eq,
      not_true_eq_false, iff_false]
    split
    · simp
    · rename_i f hf
      obtain ⟨name, reason, rfl⟩ := invalidMacro_of_check hf
      rw [List.any_cons, isUnresolved_invalidMacro]
      simp

namespace Parser

/-! ## Reading a macro's statement -/

/-- Reads the body of a macro and the end of its statement. -/
def readBody (t : Template) : Parser (Option (Template × Node)) := do
  modify fun s => { s with template := some t }
  let body ← exprOrError topCollection
  let template := (← get).template
  modify fun s => { s with template := none }
  discard
  expectEnd "Expected ',' or newline after macro statement"
  return template.map (·, body)

/-- Reads the statement of a macro up to where the macro is made. -/
def readMacro (isFunction : Bool) (start : Nat) : Parser (Option (Template × Node)) := do
  match ← definitionName .macroName with
  | none => return none
  | some name =>
    discard
    match kindOfToken? (← next true .plainWord).kind with
    | none =>
      error "Invalid macro statement; expected '\x7b', '[', '(' or ':'"
      rewind false
      skipStatement .plainWord lineEnd
      return none
    | some kind =>
      let kind := if isFunction then kind.asFunction else kind
      match ← params (Template.begin start name kind) with
      | some t => readBody t
      | none => return none

/-- Makes the macro that was read, and makes it known. -/
def makeMacro : Option (Template × Node) → Parser Unit
  | none => return
  | some (t, body) => do
    addReports (t.finish body).2
    match (t.finish body).1 with
    | some m => registerMacro t.start m
    | none => return

theorem macroBody_eq (t : Template) : macroBody t = readBody t >>= makeMacro := by
  unfold macroBody readBody
  simp only [bind_assoc, pure_bind]
  refine bind_congr fun _ => bind_congr fun body => bind_congr fun s => ?_
  refine bind_congr fun _ => bind_congr fun _ => bind_congr fun _ => ?_
  cases s.template with
  | none => rfl
  | some t => rfl

theorem macroStatement_eq (isFunction : Bool) (start : Nat) :
    macroStatement isFunction start = readMacro isFunction start >>= makeMacro := by
  unfold macroStatement readMacro
  rw [bind_assoc]
  refine bind_congr fun found => ?_
  cases found with
  | none => rfl
  | some name =>
    simp only [bind_assoc]
    refine bind_congr fun _ => bind_congr fun token => ?_
    cases kindOfToken? token.kind with
    | none => simp only [bind_assoc]; rfl
    | some kind =>
      simp only [bind_assoc]
      refine bind_congr fun t => ?_
      cases t with
      | none => rfl
      | some t => exact macroBody_eq t

/-! ## Errors in the statement -/

variable {α β : Type} {s t u : ParserState}

/-- A parser that leaves marks alone and gives a value with a property, and with another one if it
reports no error. -/
def Vouches (p : Parser α) (P Q : α → Prop) : Prop :=
  ∀ s, Yields p s fun a t => Aside s t ∧ P a ∧ (Clean s t → Q a)

section

variable {p : Parser α} {f : α → Parser β} {P P' : α → Prop} {Q Q' : β → Prop}

theorem Vouches.pure {a : α} (h : P a) (h' : P' a) : Vouches (pure a) P P' :=
  fun s => Yields.of_pure ⟨refl_of Aside s, h, fun _ => h'⟩

theorem Vouches.bind (hp : Vouches p P P')
    (hf : ∀ a, P a → Vouches (f a) Q fun b => P' a → Q' b) : Vouches (p >>= f) Q Q' := by
  refine fun s => Yields.bind (hp s) fun a t ht => (hf a ht.2.1 t).mono fun b u hu => ?_
  refine ⟨trans_of Aside ht.1 hu.1, hu.2.1, fun hc => ?_⟩
  obtain ⟨hst, htu⟩ := hc.split ht.1.grown hu.1.grown
  exact hu.2.2 htu (ht.2.2 hst)

theorem Vouches.after (hp : Moves Aside p) (hf : ∀ a, Vouches (f a) Q Q') :
    Vouches (p >>= f) Q Q' := by
  refine fun s => Yields.bind (hp s) fun a t ht => (hf a t).mono fun b u hu => ?_
  exact ⟨trans_of Aside ht hu.1, hu.2.1, fun hc => hu.2.2 (hc.split ht.grown hu.1.grown).2⟩

theorem Vouches.ite {c : Prop} [Decidable c] {q : Parser α} (hp : c → Vouches p P P')
    (hq : ¬c → Vouches q P P') : Vouches (if c then p else q) P P' :=
  fun s => Yields.of_ite (fun h => hp h s) fun h => hq h s

theorem Vouches.loop {step : α → Parser (Turn α)}
    (hstep : ∀ a, P a → Vouches (step a) (fun r => P r.value) fun r => P' a → P' r.value) {a : α}
    (ha : P a) (ha' : P' a) : Vouches (loop step a) P P' := by
  intro s
  refine Yields.get_bind (Yields.of_turns_keep
    (I := fun b t => Aside s t ∧ P b ∧ (Clean s t → P' b)) (fun b t ht => ?_) (fun b t ht => ?_)
    ⟨refl_of Aside s, ha, fun _ => ha'⟩)
  · refine (hstep b ht.2.1 t).mono fun r u hu => ?_
    have hvalue : Aside s u ∧ P r.value ∧ (Clean s u → P' r.value) := by
      refine ⟨trans_of Aside ht.1 hu.1, hu.2.1, fun hc => ?_⟩
      obtain ⟨hst, htu⟩ := hc.split ht.1.grown hu.1.grown
      exact hu.2.2 htu (ht.2.2 hst)
    cases r with
    | again c => exact hvalue
    | done c => exact hvalue
  · have hex := exhaust_aside t
    exact ⟨trans_of Aside ht.1 hex, ht.2.1, fun hc => ht.2.2 (hc.split ht.1.grown hex.grown).1⟩

theorem addReports_vouches (rs : List Report) :
    Vouches (addReports rs) (fun _ => True) fun _ => hasError rs = false := by
  refine fun s => (addReports_aside rs s).and ⟨trivial, ?_⟩
  cases he : hasError rs with
  | true => exact fun hc => absurd hc (not_clean_of_hasError (s := s) he)
  | false => exact fun _ => rfl

theorem Vouches.error (message : String) {f : PUnit → Parser β}
    (hf : ∀ a, Vouches (f a) Q fun _ => True) : Vouches (Parser.error message >>= f) Q Q' := by
  refine (addReports_vouches [Report.error message]).bind fun a _ s => ?_
  exact (hf a s).mono fun _ _ hu => ⟨hu.1, hu.2.1, nofun⟩

end

/-! ## Names and parameters -/

theorem endStatement_aside : Moves Aside endStatement := by
  refine Moves.bind discard_aside fun _ => Moves.bind (next_aside _ _) fun token => ?_
  split
  · refine Moves.bind discard_aside fun _ => Moves.bind (next_aside _ _) fun token => ?_
    exact Moves.ite (Moves.bind (rewind_aside _) fun _ => Moves.pure _) (Moves.pure _)
  · exact Moves.pure _
  · exact Moves.pure _
  · exact Moves.bind (rewind_aside _) fun _ => Moves.pure _

theorem expectEnd_aside (message : String) : Moves Aside (expectEnd message) := by
  refine Moves.bind endStatement_aside fun ended => Moves.ite ?_ (Moves.pure _)
  exact Moves.bind (error_aside _) fun _ => skipStatement_aside _ _

theorem error_rewind_skip_vouches (message : String) (mode : ReadMode) (stop : StopAt) {a : α}
    {P Q : α → Prop} (h : P a) :
    Vouches (do Parser.error message; rewind false; skipStatement mode stop; return a) P Q :=
  .error _ fun _ => .after (rewind_aside _) fun _ =>
    .after (skipStatement_aside _ _) fun _ => .pure h trivial

theorem definitionName_vouches (mode : ReadMode) :
    Vouches (definitionName mode) (fun _ => True) fun name => name.isSome = true := by
  refine .after discard_aside fun _ => .after (next_aside _ _) fun token =>
    .ite (fun _ => ?_) fun h => ?_
  · exact error_rewind_skip_vouches _ _ _ trivial
  · refine .pure trivial ?_
    cases hl : token.literal with
    | none => simp [Token.isLiteral, hl] at h
    | some name => rfl

theorem defaultValue_aside : Moves Aside defaultValue := by
  refine Moves.bind (next_aside _ _) fun token => Moves.ite ?_ (Moves.pure _)
  refine Moves.bind (exprOrError_accounts topCollection_accounts).outside fun value => ?_
  exact Moves.bind (next_aside _ _) fun token => Moves.pure _

theorem paramTurn_vouches (closer : TokenKind) {t : Template} (ht : t.Unmarked) :
    Vouches (paramTurn closer t) (fun r => r.value.Unmarked)
      fun r => t.invalid = false → r.value.invalid = false := by
  have hresume (message : String) {t' : Template} (ht' : t'.Unmarked) {Q : Turn Template → Prop} :
      Vouches (Parser.error message >>= fun _ => resumeParams closer t')
        (fun r => r.value.Unmarked) Q :=
    .error _ fun _ => .after (skipTo_aside topCollection_accounts _ _) fun _ =>
      .ite (fun _ => .pure ⟨ht'.1, ht'.2⟩ trivial) fun _ => .pure ⟨ht'.1, ht'.2⟩ trivial
  refine .after (next_aside _ _) fun token => .ite (fun _ => .pure ht id) fun _ =>
    .ite (fun _ => hresume _ ht) fun _ => .after defaultValue_aside fun d => ?_
  have hadd := ht.addParam token.text d.1 token.start
  refine (addReports_vouches _).bind fun _ _ => ?_
  have hvalid := t.addParam_invalid token.text d.1 token.start
  refine .ite (fun _ => .pure hadd fun he hi => (hvalid he).trans hi) fun _ => ?_
  exact .ite (fun _ => .pure hadd fun he hi => (hvalid he).trans hi) fun _ => hresume _ hadd

theorem params_vouches {t : Template} (ht : t.Unmarked) (hv : t.invalid = false) :
    Vouches (params t) (fun found => ∀ u, found = some u → u.Unmarked)
      fun found => ∃ u, found = some u ∧ u.invalid = false := by
  unfold params
  split
  · exact .pure (fun u hu => Option.some.inj hu ▸ ht) ⟨t, rfl, hv⟩
  · rename_i closer _
    have hread : Vouches (loop (paramTurn closer) t) Template.Unmarked fun u => u.invalid = false :=
      .loop (fun u hu => paramTurn_vouches closer hu) ht hv
    refine hread.bind fun u hu => ?_
    refine .after discard_aside fun _ => .after (next_aside _ _) fun token => ?_
    refine .ite (fun _ => .pure (fun v hv => Option.some.inj hv ▸ hu) fun hi => ⟨u, rfl, hi⟩) ?_
    exact fun _ => error_rewind_skip_vouches _ _ _ nofun

/-! ## The statement -/

/-- What reading a macro's statement comes to, if its body is reached: its marked nodes are among
those that were recorded, in this order, and without an error only lost marks are missing. -/
structure ReadBody (s u : ParserState) (t : Template) (body : Node) : Prop where
  keyed : body.Keyed
  recorded : ∃ new, List.Forall₂ (RecordedFor s.visible.macros) t.pending new
    ∧ new.map Prod.fst = List.range new.length ∧ body.marked.Sublist new
  balance : Clean s u → t.pending.length + s.lost = body.marks.length + u.lost

theorem ReadBody.before {template : Template} {body : Node} (h : Aside s t) (g : Extends t u)
    (hr : ReadBody t u template body) : ReadBody s u template body := by
  refine ⟨hr.keyed, h.grown.visible ▸ hr.recorded, fun hc => ?_⟩
  rw [← h.lost]
  exact hr.balance (hc.split h.grown g).2

theorem readBody_reads {template : Template} (ht : template.Unmarked) (s : ParserState) :
    Yields (readBody template) s fun found u => Extends s u
      ∧ ∃ t body, found = some (t, body) ∧ t.invalid = template.invalid ∧ ReadBody s u t body := by
  refine Yields.modify_bind (Yields.bind (exprOrError_accounts topCollection_accounts _)
    fun body t hbody => Yields.get_bind (Yields.modify_bind ?_))
  refine Yields.bind (discard_aside _) fun _ v hv => Yields.bind (expectEnd_aside _ v) fun _ u hu =>
    Yields.of_pure ?_
  have hend := trans_of Aside hv hu
  have hg := hbody.grown
  have hl := hend.grown
  obtain ⟨template', new, htemplate, hgrants, hsub, hcount⟩ := hbody.inside template rfl
  obtain ⟨more, hmore, hrecorded⟩ := hgrants.pending
  rw [ht.pending, List.nil_append] at hmore
  refine ⟨⟨hl.1.trans hg.1, hl.2.trans hg.2, hl.3.trans hg.3, hl.4.trans hg.4, hl.5.trans hg.5,
    fun _ => hend.template, hg.7.trans hl.7, fun h => hl.8 (hg.8 h),
    fun h => (hl.9 (hg.2.trans h)).trans (hg.9 h), fun h => hl.10 (hg.10 h),
    fun h => hl.11 (hg.11 h)⟩, template', body, ?_,
    hgrants.invalid, hbody.keyed rfl nofun body List.mem_cons_self, ⟨new, ?_, ?_, ?_⟩,
    fun hc => ?_⟩
  · rw [htemplate, Option.map_some]
  · rw [hmore]
    exact hrecorded
  · rw [hgrants.numbered, ht.nextMark, List.range_eq_range']
  · rwa [markedIn_singleton] at hsub
  · have hfirst := hg.countOf_le .error
    have hlast := hl.countOf_le .error
    have hsame := hcount ⟨hc.1, by have := hc.2; simp only at *; omega⟩
    have hlost : u.lost = t.lost := hend.lost
    have hlength := congrArg List.length (Node.marks_eq_map body)
    rw [List.length_map] at hlength
    rw [markedIn_singleton] at hsame
    rw [hmore, hrecorded.length_eq, hlost, hlength]
    simpa [markedIn] using hsame

theorem readMacro_reads (isFunction : Bool) (start : Nat) (s : ParserState) :
    Yields (readMacro isFunction start) s fun found u => Extends s u
      ∧ (∀ t body, found = some (t, body) → ReadBody s u t body)
      ∧ (Clean s u → ∃ t body, found = some (t, body) ∧ t.invalid = false) := by
  refine Yields.bind (definitionName_vouches _ s) fun name t ht => ?_
  cases name with
  | none => exact Yields.of_pure ⟨ht.1.grown, nofun, fun hc => by simpa using ht.2.2 hc⟩
  | some name =>
    refine Yields.bind (discard_aside t) fun _ u hu =>
      Yields.bind (next_aside _ _ u) fun token v hv => ?_
    have hv := trans_of Aside ht.1 (trans_of Aside hu hv)
    cases kindOfToken? token.kind with
    | none =>
      refine (error_rewind_skip_vouches _ _ _ (P := (· = none)) (Q := fun _ => False) rfl v).mono
        fun found w hw => ?_
      have hend := trans_of Aside hv hw.1
      exact ⟨hend.grown, by simp [hw.2.1],
        fun hc => (hw.2.2 (hc.split hv.grown hw.1.grown).2).elim⟩
    | some kind =>
      refine Yields.bind (params_vouches (t := Template.begin start name _) ⟨rfl, rfl⟩ rfl v)
        fun found w hw => ?_
      have hend := trans_of Aside hv hw.1
      cases found with
      | none =>
        refine Yields.of_pure ⟨hend.grown, nofun, fun hc => ?_⟩
        simpa using hw.2.2 (hc.split hv.grown hw.1.grown).2
      | some template =>
        refine (readBody_reads (hw.2.1 template rfl) w).mono fun found x hx => ?_
        obtain ⟨hg, t', body, rfl, hi, hr⟩ := hx
        have hread := hr.before hend hg
        refine ⟨hend.grown.trans hg, fun t'' body' he => ?_, fun hc => ⟨t', body, rfl, ?_⟩⟩
        · obtain ⟨rfl, rfl⟩ := Prod.mk.inj (Option.some.inj he)
          exact hread
        · obtain ⟨_, he, hvalid⟩ :=
            hw.2.2 ((hc.split hend.grown hg).1.split hv.grown hw.1.grown).2
          exact hi.trans (Option.some.inj he ▸ hvalid)

theorem ReadBody.marks {template : Template} {body : Node} (h : ReadBody s u template body) :
    body.marks.Sublist (template.pending.map Prod.fst)
      ∧ (template.pending.map Prod.fst).Nodup := by
  obtain ⟨new, hrecorded, hnumbered, hsub⟩ := h.recorded
  rw [Node.marks_eq_map, recordedFor_map_fst hrecorded]
  exact ⟨hsub.map Prod.fst, hnumbered ▸ List.nodup_range⟩

/-- If nothing else is wrong with the statement of a macro, its operations that are not found again
are as many as the marks lost on the way, and it is reported that there are some just if a mark was
lost; otherwise every mark that was given is in the body. -/
theorem unresolved_iff_lost {isFunction : Bool} {start : Nat} {found : Option (Template × Node)}
    (hs : s.recovering = false) (hrun : (readMacro isFunction start).run s = (found, u))
    (hc : countOf .error u.reports = countOf .error s.reports) :
    (macroStatement isFunction start).run s = (makeMacro found).run u
      ∧ ∃ t body, found = some (t, body) ∧ s.lost ≤ u.lost
        ∧ ((t.finish body).2.any Report.isUnresolved = true ↔ s.lost < u.lost)
        ∧ (Template.locate t.pending body.postOrder).2.length = u.lost - s.lost
        ∧ (u.lost = s.lost → body.marks = t.pending.map Prod.fst) := by
  have hread : Extends s u ∧ (∀ t body, found = some (t, body) → ReadBody s u t body)
      ∧ (Clean s u → ∃ t body, found = some (t, body) ∧ t.invalid = false) := by
    have h := readMacro_reads isFunction start s
    rwa [Yields, hrun] at h
  obtain ⟨-, hbody, hfound⟩ := hread
  refine ⟨by rw [macroStatement_eq]; exact congrArg (fun r => (makeMacro r.1).run r.2) hrun, ?_⟩
  obtain ⟨t, body, rfl, hvalid⟩ := hfound ⟨hs, hc⟩
  have hr := hbody t body rfl
  obtain ⟨hsub, hnodup⟩ := hr.marks
  have hbalance := hr.balance ⟨hs, hc⟩
  have hleft := locate_left (hnodup.sublist hsub) fun m hm => hsub.subset hm
  have hle := hsub.length_le
  rw [List.length_map] at hle
  refine ⟨t, body, rfl, by omega, ?_, by omega, fun hsame => ?_⟩
  · rw [finish_unresolved_iff hvalid, ne_eq, ← List.length_eq_zero_iff]
    omega
  · refine hsub.eq_of_length ?_
    rw [List.length_map]
    omega

/-- Of two references to a parameter, the one on the right of an accessor is lost. -/
theorem unresolved_iff_lost_accessor :
    let dot : Operator := ⟨".", false, .binary, none, .accessor, Number.ofInt 6⟩
    let s := Parser.start {} { operators := (({} : OperatorTable).add dot).1 }
      (Source.ofText "m[a] : [a, (x.a)]")
    let r := (readMacro false 0).run s
    s.recovering = false ∧ countOf .error r.2.reports = countOf .error s.reports ∧ r.2.lost = 1
      ∧ ∃ t body, r.1 = some (t, body) ∧ t.pending.length = 2 ∧ body.marks.length = 1
        ∧ (t.finish body).2.any Report.isUnresolved = true := by
  intro dot s r
  have hrun : (readMacro false 0).run s = (r.1, r.2) := rfl
  have hc : countOf .error r.2.reports = countOf .error s.reports := by decide +kernel
  have hlost : r.2.lost = 1 := by decide +kernel
  have hmarks : r.1.map (fun f => (f.1.pending.length, f.2.marks.length)) = some (2, 1) := by
    decide +kernel
  obtain ⟨-, t, body, hfound, -, hiff, -⟩ := unresolved_iff_lost rfl hrun hc
  rw [hfound, Option.map_some, Option.some.injEq, Prod.mk.injEq] at hmarks
  have hless : s.lost < r.2.lost := hlost ▸ Nat.zero_lt_one
  exact ⟨rfl, hc, hlost, t, body, hfound, hmarks.1, hmarks.2, hiff.mpr hless⟩

/-- The only error of a script can be that an operation is not found again. -/
theorem accessor_operand_unresolved :
    (compile {} (fun _ i => (.crashed, i) : Resolver Unit) {}
      (Source.ofText "operator . as binary accessor\nmacro m[a] : (x.a)") ()).1.reports
        = [Report.errorAt "Unresolved macro operation: value replacement of parameter #0"
            (some 30)] := by decide +kernel

end Parser

end ConfigScript
