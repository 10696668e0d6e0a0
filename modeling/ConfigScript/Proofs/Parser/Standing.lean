import ConfigScript.Parser.Script
import ConfigScript.Proofs.Parser.Requests
import ConfigScript.Proofs.Parser.StatementRules
import ConfigScript.Proofs.Parser.Substitution
import ConfigScript.Proofs.Token.Reported

/-! # Where the reports of a script stand

A report stands at a token of the script, or where the macros that are known to the script carry
positions to. So it is with the nodes that are read, and with what the script defines. -/

namespace ConfigScript

theorem Report.Stands.placed {A : Nat → Prop} {r : Report} (h : r.Stands A) : r.Placed A := by
  obtain ⟨p, hp, ha⟩ := h
  intro q hq
  rw [hp, Option.mem_def, Option.some.injEq] at hq
  exact hq ▸ ha

theorem Report.Placed.stands {A : Nat → Prop} {r : Report} (h : r.Placed A) {p : Nat} (hp : A p) :
    (r.orAt (some p)).Stands A := by
  cases hr : r.position with
  | none => exact ⟨p, by simp [Report.orAt, hr], hp⟩
  | some q => exact ⟨q, by simp [Report.orAt, hr], h q hr⟩

namespace Parser

variable {A : Nat → Prop} {N : NativeBody → Prop} {α β : Type}

/-- Tokens, reports, and the macros known to the script, stand where positions have a property; the
native code of the macros has another one. -/
structure Standing (A : Nat → Prop) (N : NativeBody → Prop) (s : ParserState) : Prop where
  tokenizer : s.tokenizer.Placed A
  reports : ReportsStand A s.reports
  visible : s.visible.macros.Placed A N
  exported : s.exported.macros.Placed A N
  template : ∀ t ∈ s.template, t.Placed A N

/-- A parser that keeps it so, with a value that has a property. -/
def Stays (A : Nat → Prop) (N : NativeBody → Prop) (α : Type) (p : Parser α) (Q : α → Prop) :
    Prop :=
  ∀ s, Standing A N s → Yields p s fun a t => Standing A N t ∧ Q a

theorem Stays.pure {a : α} {Q : α → Prop} (h : Q a) : Stays A N α (pure a) Q :=
  fun _ hs => ⟨hs, h⟩

theorem Stays.bind {p : Parser α} {f : α → Parser β} {P : α → Prop} {Q : β → Prop}
    (hp : Stays A N α p P) (hf : ∀ a, P a → Stays A N β (f a) Q) : Stays A N β (p >>= f) Q :=
  fun s hs => Yields.bind (hp s hs) fun a t ht => hf a ht.2 t ht.1

theorem Stays.get_bind {f : ParserState → Parser β} {Q : β → Prop}
    (hf : ∀ s, Standing A N s → Stays A N β (f s) Q) : Stays A N β (get >>= f) Q :=
  fun s hs => Yields.get_bind (hf s hs s hs)

theorem Stays.modify {g : ParserState → ParserState}
    (h : ∀ s, Standing A N s → Standing A N (g s)) : Stays A N _ (modify g) fun _ => True :=
  fun s hs => ⟨h s hs, trivial⟩

/-! ## Readers -/

theorem addReports_stays {rs : List Report} (hrs : ReportsPlaced A rs) :
    Stays A N _ (addReports rs) fun _ => True := by
  refine Stays.modify fun s hs => ?_
  split
  · exact hs
  · refine { hs with reports := hs.reports.append fun r hr => ?_ }
    obtain ⟨q, hq, rfl⟩ := List.mem_map.mp hr
    exact (hrs q hq).stands hs.tokenizer.lastStart

theorem error_stays (message : String) : Stays A N _ (error message) fun _ => True :=
  addReports_stays (reportsPlaced_of_none (by simp [Report.error, Report.errorAt]))

theorem breakDown_stands {s : ParserState} (hs : Standing A N s) : Standing A N (breakDown s) :=
  (error_stays (N := N) "Unexpected error" { s with recovering := false } { hs with }).1

theorem next_stays (skipBreaks : Bool) (mode : ReadMode) :
    Stays A N _ (next skipBreaks mode) fun token => A token.start := by
  intro s hs
  obtain ⟨hstart, hnext⟩ := hs.tokenizer.next skipBreaks mode s.visible.operators
  have hrs : ReportsPlaced A (s.tokenizer.next skipBreaks mode s.visible.operators).2.reports :=
    fun r hr => (hnext.reports r hr).placed
  refine Yields.get_bind (Yields.set_bind (Yields.bind (addReports_stays (N := N) hrs _ ?_)
    fun _ _ ht => Yields.of_pure ⟨ht.1, hstart⟩))
  exact { hs with tokenizer := { hnext with reports := reportsStand_nil } }

theorem reportDuplicate_stays (key : String) {position : Nat} (h : A position) :
    Stays A N _ (reportDuplicate key position) fun _ => True :=
  Stays.get_bind fun _ _ => addReports_stays (reportsPlaced_singleton fun _ hp =>
    Option.some.inj hp ▸ h)

theorem resolveParam?_stays {n : Node} (hn : n.Placed A) :
    Stays A N _ (resolveParam? n) (Rules.Found A) := by
  refine Stays.get_bind fun s hs => ?_
  split
  · exact Stays.pure (by simp [Rules.Found])
  · rename_i n' t rs he
    obtain ⟨t₀, ht₀, hr⟩ := Option.bind_eq_some_iff.mp he
    obtain ⟨hrecords, hnode⟩ := Template.resolveParam?_records hr
    have ht : t.Placed A N := (hs.template t₀ ht₀).records hrecords
    have hn' : n'.Placed A := by
      rcases hnode with rfl | ⟨k, rfl⟩
      · exact hn
      · exact hn.setMark _
    refine Stays.bind (.modify fun _ hu => { hu with
      template := fun t' ht' => Option.some.inj ht' ▸ ht }) fun _ _ => ?_
    refine Stays.bind (addReports_stays (Template.resolveParam?_reports hr)) fun _ _ => ?_
    exact Stays.pure (by simpa [Rules.Found] using hn')

theorem substitute_stays : Stays A N _ substitute fun n => n.Placed A :=
  fun _ hs => ⟨{ hs with }, Node.placed_value _⟩

theorem failed_stays (f : Fault) {position : Nat} (hp : A position) :
    Stays A N _ (report (failureReport f position) >>= fun _ => substitute) fun n => n.Placed A :=
  Stays.bind (addReports_stays (reportsPlaced_singleton fun _ hq => Option.some.inj hq ▸ hp))
    fun _ _ => substitute_stays

theorem expanded_stays (name : String) {position : Nat} (hp : A position) {r : MacroResult}
    (hr : ∀ n, r = .produced n → n.Placed A) :
    Stays A N _ (expanded name position r) fun n => n.Placed A := by
  cases r with
  | produced n =>
    refine Stays.pure (Node.Placed.asMade ?_)
    split
    · exact (hr n rfl).placedAt hp
    · exact hr n rfl
  | refused => exact substitute_stays
  | fault f => exact failed_stays f hp
  | crashed message => exact failed_stays _ hp

/-! ## Registration -/

theorem registerMacro_stays {m : Macro} (hm : m.Placed A N) {start : Nat} (hs : A start) :
    Stays A N _ (registerMacro start m) fun _ => True := by
  refine Stays.get_bind fun s hst => ?_
  refine Stays.bind (addReports_stays ((s.visible.macros.add_reports m).orAt hs)) fun _ _ => ?_
  exact .modify fun _ hu => { hu with
    visible := hst.visible.add hm
    exported := hu.exported.add hm }

theorem registerOperator_stays (o : Operator) {start : Nat} (hs : A start) :
    Stays A N _ (registerOperator start o) fun _ => True := by
  have hreport {message : String} {severity : Severity} :
      Stays A N _ (report ⟨severity, message, some start, []⟩) fun _ => True :=
    addReports_stays (reportsPlaced_singleton fun _ hp => Option.some.inj hp ▸ hs)
  intro s hst
  unfold registerOperator
  refine Yields.get_bind (Yields.of_ite (fun _ => ?_) fun _ =>
    Yields.of_ite (fun _ => ?_) fun _ => ?_)
  · exact ⟨{ hst with }, trivial⟩
  · refine (Stays.bind hreport fun _ _ => Stays.modify fun u hu => ?_) s hst
    exact ⟨hu.tokenizer, hu.reports, hu.visible, hu.exported, hu.template⟩
  · exact hreport s hst

section

variable (hN : ∀ run, N run → run.Keeps A)
include hN

/-- A call is placed at its name, and what comes of it where its argument and the macro stand. -/
theorem callMacro_stays {n : Node} (hn : n.Placed A) (kind : MacroKind) {position : Nat}
    (hp : A position) : Stays A N _ (callMacro n kind position) fun m => m.Placed A := by
  refine Stays.get_bind fun s hs => Rules.of_ite (fun _ => Stays.pure hn) fun hg => ?_
  have hfound := (searchGroup_spec kind (by simpa using hg) n).2
  refine Stays.bind (addReports_stays ((searchGroup_placed kind _ n).orAt hp)) fun _ _ => ?_
  split
  · exact substitute_stays
  · rename_i m t he ht
    have hm : m.Placed A N := hs.visible.group _ m (hfound m he)
    have hdeferred : (t.deferCall m n).2.Placed A N := (hs.template t ht).deferCall hm n
    refine Stays.bind (.modify fun _ hu => ?_) fun _ _ => Stays.pure (hn.setMark _)
    exact { hu with template := fun t' ht' => Option.some.inj ht' ▸ hdeferred }
  · rename_i m he ht
    have hm : m.Placed A N := hs.visible.group _ m (hfound m he)
    have happly := hm.apply hN hn s.config.copyConstants
    exact Stays.bind (addReports_stays (happly.2.orAt hp)) fun _ _ =>
      expanded_stays _ hp happly.1

theorem stays_rules : Rules A (Stays A N) where
  pure := .pure
  bind := .bind
  loop := by
    intro α step I a hstep ha s hs
    refine Yields.get_bind (Yields.of_turns_keep (I := fun a t => Standing A N t ∧ I a)
      (fun a t ht => ?_) (fun _ t ht => ⟨{ ht.1 with }, ht.2⟩) ⟨hs, ha⟩)
    refine (hstep a ht.2 t ht.1).mono fun r u hu => ?_
    cases r with
    | again b => exact hu
    | done b => exact hu
  next := next_stays
  discard := .modify fun _ hs => { hs with tokenizer := hs.tokenizer.discard }
  rewind again := .modify fun _ hs => { hs with
    tokenizer := by
      cases again with
      | true => exact hs.tokenizer.reread
      | false => exact hs.tokenizer.replay }
  bound := fun _ hs => ⟨hs, trivial⟩
  exhaust := .modify fun _ hs => { hs with }
  levels hf := .get_bind fun _ _ => hf _
  reports := addReports_stays
  duplicate key _ h := reportDuplicate_stays key h
  noteAccess _ := .modify fun _ hs => { hs with }
  noteLost _ := .modify fun _ hs => { hs with }
  substitute := substitute_stays
  outside hp s hs := Yields.of_outsideTemplate ((hp { s with template := none }
    { hs with template := by simp }).mono fun _ _ ht =>
      ⟨{ ht.1 with template := hs.template }, ht.2⟩)
  skipping hp := Stays.get_bind fun _ _ => Stays.bind (.modify fun _ hs => { hs with }) fun _ _ =>
    Stays.bind hp fun _ ha => Stays.bind (.modify fun _ hs => { hs with }) fun _ _ => .pure ha
  resolveParam? hn := resolveParam?_stays hn
  callMacro kind _ hn hp := callMacro_stays hN hn kind hp

/-! ## Statements -/

theorem stays_statement_rules : StatementRules A N (Stays A N) (Stays A N) where
  readers := stays_rules hN
  lift := id
  bind := .bind
  push _ := .modify fun _ hs => { hs with }
  body ht hp _ hf := by
    refine Stays.bind (.modify fun _ hs => { hs with
      template := fun t' ht' => Option.some.inj ht' ▸ ht }) fun _ _ => ?_
    refine Stays.bind hp fun n hn => Stays.get_bind fun s hs => ?_
    refine Stays.bind (.modify fun _ hu => { hu with template := by simp }) fun _ _ => ?_
    exact hf n s hn hs.template
  registerMacro _ hm hs := registerMacro_stays hm hs
  registerOperator _ hs := registerOperator_stays _ hs
  forgetMacro s := .modify fun _ hs => { hs with
    visible := hs.visible.remove s
    exported := hs.exported.remove s }
  forgetOperator _ _ := .modify fun _ hs => { hs with }

/-! ## Imports -/

/-- What an answer brings stands where positions have a property. -/
def AnswerPlaced (A : Nat → Prop) (N : NativeBody → Prop) (found : Option Definition)
    (rs : List Report) : Prop :=
  (∀ d ∈ found, d.macros.Placed A N) ∧ ReportsPlaced A rs

theorem finishImport_stays {start : Nat} (hs : A start) {found : Option Definition}
    (hf : ∀ d ∈ found, d.macros.Placed A N) (purpose : Purpose) :
    Stays A N _ (finishImport start found purpose) fun _ => True := by
  have hend (message : String) : Stays A N _ (expectEnd message) fun _ => True :=
    (stays_rules hN).expectEnd message
  cases purpose with
  | forget => exact (stays_statement_rules hN).finishForget start found
  | use isPublic =>
    cases found with
    | none => exact Stays.pure trivial
    | some d =>
      refine Stays.get_bind fun s hst => ?_
      refine Stays.bind (.modify fun _ hu =>
        { hu with visible := copy_placed hst.visible (hf d rfl) }) fun _ _ => ?_
      refine Stays.bind (addReports_stays ((s.visible.copy_reports d).orAt hs)) fun _ _ =>
        Rules.of_ite (fun _ => ?_) fun _ => hend _
      exact Stays.bind (.modify fun _ hu =>
        { hu with exported := copy_placed hu.exported (hf d rfl) }) fun _ _ => hend _

theorem takeAnswer_stays {start : Nat} (hs : A start) (purpose : Purpose)
    {found : Option Definition} {rs : List Report} (h : AnswerPlaced A N found rs) :
    Stays A N _ (takeAnswer start purpose found rs) fun _ => True :=
  Stays.bind (addReports_stays (h.2.orAt hs)) fun _ _ => finishImport_stays hN hs h.1 purpose

/-! ## Scripts -/

variable {σ : Type} {resolve : Resolver σ}

/-- The reports of a run stand where tokens of the script do, or where the macros stand that it
knows at first or is answered with. -/
theorem statements_stand {n : Nat} {s : ParserState} {i : σ} (hs : Standing A N s)
    (hanswers : ∀ path j, (path, j) ∈ requests resolve n s i → ∀ found rs,
      (resolve path j).1 = .answered found rs → AnswerPlaced A N found rs) :
    Standing A N (statements resolve n s i).2.1 := by
  induction n generalizing s i with
  | zero => exact hs
  | succ n ih =>
    have hst := (stays_statement_rules hN).statement s hs
    have ht := turn_turned resolve s i
    unfold requests at hanswers
    unfold statements
    generalize turn resolve s i = r at ht hanswers
    cases ht with
    | ended _ hrun =>
      rw [Yields, hrun] at hst
      exact hst.1
    | complete hr hrun =>
      rw [Yields, hrun] at hst
      exact ih hst.1 fun path j hm => hanswers path j (List.mem_append_right _ hm)
    | brokenDown _ hrun _ =>
      rw [Yields, hrun] at hst
      exact hst.1
    | @answered t path start purpose found rs k hr hrun ha =>
      rw [Yields, hrun] at hst
      have hplaced : AnswerPlaced A N found rs :=
        hanswers path i (by simp [hr]) found rs (by rw [ha])
      have hnext := takeAnswer_stays hN hst.2 purpose hplaced t hst.1
      exact ih hnext.1 fun path j hm => hanswers path j (List.mem_append_right _ hm)

theorem compile_stand {config : Config} {visible : Definition} {source : Source} {i : σ}
    (hsource : ∀ p ≤ source.length, A p) (hvisible : visible.macros.Placed A N)
    (hanswers : ∀ path j, (path, j) ∈ requests resolve (source.length + 2)
      (start config visible source) i → ∀ found rs,
      (resolve path j).1 = .answered found rs → AnswerPlaced A N found rs) :
    ReportsStand A (compile config resolve visible source i).1.reports
      ∧ (compile config resolve visible source i).1.definition.macros.Placed A N := by
  have hstart : Standing A N (start config visible source) :=
    ⟨Tokenizer.placed_ofChars _ hsource, reportsStand_nil, hvisible,
      by simp [start, MacroRegistry.Placed], by simp [start]⟩
  have hlast := statements_stand hN hstart hanswers
  obtain ⟨ended, s, j, hrun⟩ : ∃ ended s j, statements resolve (source.length + 2)
      (start config visible source) i = (ended, s, j) := ⟨_, _, _, rfl⟩
  rw [hrun] at hlast
  rw [compile_eq hrun]
  split
  · exact ⟨hlast.reports, hlast.exported⟩
  · exact ⟨(breakDown_stands hlast).reports, hlast.exported⟩

end

end Parser

end ConfigScript
