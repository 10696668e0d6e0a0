import ConfigScript.Parser.Script
import ConfigScript.Proofs.Parser.StatementRules
import ConfigScript.Proofs.Parser.Substitution
import ConfigScript.Proofs.Token.Governed

/-! # Options of severity

Two runs under configurations that differ in what becomes of repeated properties and of invalid
escapes go the same way: no decision depends on a report, and the reports that do not come from
those options are the same. -/

namespace ConfigScript

/-- Equal in all but the options on severities, and what was reported because of them. -/
structure ParserState.Agree (s t : ParserState) : Prop where
  allowInvalidOperator : s.config.allowInvalidOperator = t.config.allowInvalidOperator
  copyConstants : s.config.copyConstants = t.config.copyConstants
  tokenizer : s.tokenizer.Agree t.tokenizer
  root : s.root = t.root
  exported : s.exported = t.exported
  visible : s.visible = t.visible
  reports : settled s.reports = settled t.reports
  recovering : s.recovering = t.recovering
  template : s.template = t.template
  substituted : s.substituted = t.substituted
  exhausted : s.exhausted = t.exhausted
  accessedMade : s.accessedMade = t.accessedMade
  lost : s.lost = t.lost

namespace Parser

variable {α β : Type}

/-- Run in states that agree, a parser gives the same value, with a property, and leads to states
that agree. -/
def Agrees (α : Type) (p : Parser α) (Q : α → Prop) : Prop :=
  ∀ s t : ParserState, s.Agree t →
    Q (p.run s).1 ∧ (p.run s).1 = (p.run t).1 ∧ (p.run s).2.Agree (p.run t).2

theorem Agrees.pure {a : α} {Q : α → Prop} (h : Q a) : Agrees α (pure a) Q :=
  fun _ _ hst => ⟨h, rfl, hst⟩

theorem Agrees.bind {p : Parser α} {f : α → Parser β} {P : α → Prop} {Q : β → Prop}
    (hp : Agrees α p P) (hf : ∀ a, P a → Agrees β (f a) Q) : Agrees β (p >>= f) Q := by
  intro s t hst
  obtain ⟨ha, heq, hnext⟩ := hp s t hst
  have h := hf _ ha _ _ hnext
  change Q _ ∧ ((f (p.run s).1).run (p.run s).2).1 = ((f (p.run t).1).run (p.run t).2).1
    ∧ ((f (p.run s).1).run (p.run s).2).2.Agree ((f (p.run t).1).run (p.run t).2).2
  rw [← heq]
  exact h

theorem Agrees.get_bind {f : ParserState → Parser β} {Q : β → Prop} (hf : ∀ s, Agrees β (f s) Q)
    (hcongr : ∀ s t, s.Agree t → f s = f t) : Agrees β (get >>= f) Q := by
  intro s t hst
  have h := hf s s t hst
  change Q ((f s).run s).1 ∧ ((f s).run s).1 = ((f t).run t).1
    ∧ ((f s).run s).2.Agree ((f t).run t).2
  rw [← hcongr s t hst]
  exact h

theorem Agrees.of_ite {c : Prop} [Decidable c] {p q : Parser α} {Q : α → Prop}
    (hp : Agrees α p Q) (hq : Agrees α q Q) : Agrees α (if c then p else q) Q :=
  Rules.of_ite (fun _ => hp) fun _ => hq

theorem Agrees.modify {g : ParserState → ParserState} (h : ∀ s t, s.Agree t → (g s).Agree (g t)) :
    Agrees _ (modify g) fun _ => True :=
  fun s t hst => ⟨trivial, rfl, h s t hst⟩

theorem Agrees.turns {step : α → Parser (Turn α)} {I : α → Prop}
    (hstep : ∀ a, I a → Agrees _ (step a) fun r => r.Meets I I) (n : Nat) {a : α} (ha : I a) :
    Agrees α (turns step n a) I := by
  induction n generalizing a with
  | zero =>
    refine Agrees.bind (P := fun _ => True) (Agrees.modify fun _ _ h => ?_) fun _ _ => .pure ha
    exact { h with exhausted := rfl }
  | succ n ih =>
    refine Agrees.bind (hstep a ha) fun r hr => ?_
    cases r with
    | again b => exact ih hr
    | done b => exact .pure hr

/-! ## Reports -/

/-- Reports that agree may be added, unless both parsers skip. -/
theorem addReports_agree {rs ss : List Report} (hrs : settled rs = settled ss) {s t : ParserState}
    (h : s.Agree t) : ((addReports rs).run s).2.Agree ((addReports ss).run t).2 := by
  change ParserState.Agree (if s.recovering then s else _) (if t.recovering then t else _)
  cases hr : t.recovering with
  | true =>
    rw [if_pos (h.recovering.trans hr), if_pos rfl]
    exact h
  | false =>
    rw [if_neg (by simp [h.recovering, hr]), if_neg (by simp)]
    refine { h with reports := ?_, recovering := h.recovering.trans hr }
    rw [settled_append, settled_append, settled_map_orAt, settled_map_orAt, hrs, h.reports,
      h.tokenizer.lastStart]

theorem addReports_agrees (rs : List Report) : Agrees _ (addReports rs) fun _ => True :=
  fun _ _ hst => ⟨trivial, rfl, addReports_agree rfl hst⟩

theorem settled_duplicate (key : String) (position : Nat) (severity : Severity) :
    settled [⟨severity, s!"Property '{key}' is already defined", some position, []⟩] = [] := by
  have hgoverned : Report.isGoverned
      ⟨severity, "Property '" ++ key ++ "' is already defined", some position, []⟩ = true := by
    rw [Report.isGoverned, Bool.or_eq_true, Bool.and_eq_true, List.isPrefixOf_iff_prefix,
      List.isPrefixOf_iff_prefix, List.isSuffixOf_iff_suffix, String.toList_append,
      String.toList_append]
    exact .inr ⟨⟨_, (List.append_assoc _ _ _).symm⟩, List.suffix_append _ _⟩
  refine List.filter_cons_of_neg ?_
  rw [Bool.not_eq_true, Bool.not_eq_false']
  exact hgoverned

theorem reportDuplicate_agrees (key : String) (position : Nat) :
    Agrees _ (reportDuplicate key position) fun _ => True :=
  fun _ _ hst => ⟨trivial, rfl, addReports_agree
    (by rw [settled_duplicate, settled_duplicate]) hst⟩

/-! ## The steps of readers -/

theorem next_agrees (skipBreaks : Bool) (mode : ReadMode) :
    Agrees _ (next skipBreaks mode) fun _ => True := by
  intro s t hst
  have hn := hst.tokenizer.next skipBreaks mode s.visible.operators
  have hsame : t.tokenizer.next skipBreaks mode s.visible.operators
      = t.tokenizer.next skipBreaks mode t.visible.operators := by rw [hst.visible]
  rw [hsame] at hn
  refine ⟨trivial, hn.1, addReports_agree hn.2.reports ?_⟩
  exact { hst with tokenizer := { hn.2 with reports := rfl } }

theorem resolveParam?_agrees (n : Node) : Agrees _ (resolveParam? n) fun _ => True := by
  refine Agrees.get_bind (fun s => ?_) fun s t hst => by simp only [hst.template]
  split
  · exact .pure trivial
  · refine Agrees.bind (Agrees.modify fun _ _ h => { h with template := rfl }) fun _ _ => ?_
    exact Agrees.bind (addReports_agrees _) fun _ _ => .pure trivial

theorem substitute_agrees : Agrees _ substitute fun _ => True :=
  fun _ _ h => ⟨trivial, rfl, { h with substituted := rfl }⟩

theorem expanded_agrees (name : String) (position : Nat) (r : MacroResult) :
    Agrees _ (expanded name position r) fun _ => True := by
  cases r with
  | produced n => exact .pure trivial
  | refused => exact substitute_agrees
  | fault f => exact Agrees.bind (addReports_agrees _) fun _ _ => substitute_agrees
  | crashed message => exact Agrees.bind (addReports_agrees _) fun _ _ => substitute_agrees

theorem callMacro_agrees (n : Node) (kind : MacroKind) (position : Nat) :
    Agrees _ (callMacro n kind position) fun _ => True := by
  refine Agrees.get_bind (fun s => ?_) fun s t hst => by
    simp only [hst.visible, hst.template, hst.copyConstants]
  refine Agrees.of_ite (.pure trivial) (Agrees.bind (addReports_agrees _) fun _ _ => ?_)
  split
  · exact substitute_agrees
  · refine Agrees.bind (Agrees.modify fun _ _ h => { h with template := rfl }) fun _ _ => ?_
    exact .pure trivial
  · exact Agrees.bind (addReports_agrees _) fun _ _ => expanded_agrees _ _ _

theorem lostWith_agree (marks : List Nat) {s t : ParserState} (h : s.Agree t) :
    lostWith marks s = lostWith marks t := by
  rw [lostWith, lostWith, h.template, h.lost]

theorem agrees_rules : Rules (fun _ => True) Agrees where
  pure := .pure
  bind := .bind
  loop := by
    intro α step I a hstep ha
    refine Agrees.bind (P := fun _ => True) (fun s t hst => ?_) fun n _ => Agrees.turns hstep n ha
    refine ⟨trivial, ?_, hst⟩
    change s.tokenizer.committed.rest.length + 2 = t.tokenizer.committed.rest.length + 2
    rw [hst.tokenizer.committed]
  next skipBreaks mode := next_agrees skipBreaks mode
  discard := .modify fun _ _ h => { h with tokenizer := h.tokenizer.discard }
  rewind again := .modify fun _ _ h => { h with
    tokenizer := by
      cases again with
      | true => exact h.tokenizer.reread
      | false => exact h.tokenizer.replay }
  bound s t hst := by
    refine ⟨trivial, ?_, hst⟩
    change s.tokenizer.committed.rest.length + 2 = t.tokenizer.committed.rest.length + 2
    rw [hst.tokenizer.committed]
  exhaust := .modify fun _ _ h => { h with exhausted := rfl }
  levels hf := .get_bind (fun s => hf _) fun s t hst => by rw [hst.visible]
  reports _ := addReports_agrees _
  duplicate key position _ := reportDuplicate_agrees key position
  noteAccess n := .modify fun _ _ h => { h with
    accessedMade := congrArg (· || n.info.made) h.accessedMade
    lost := lostWith_agree _ h }
  noteLost marks := .modify fun _ _ h => { h with lost := lostWith_agree marks h }
  substitute s t hst := ⟨Node.placed_true _, (substitute_agrees s t hst).2⟩
  outside hp s t hst := by
    obtain ⟨hq, heq, h⟩ := hp { s with template := none } { t with template := none }
      { hst with template := rfl }
    exact ⟨hq, heq, { h with template := hst.template }⟩
  skipping hp s t hst := by
    obtain ⟨hq, heq, h⟩ := hp { s with recovering := true } { t with recovering := true }
      { hst with recovering := rfl }
    exact ⟨hq, heq, { h with recovering := hst.recovering }⟩
  resolveParam? _ s t hst := ⟨Rules.found_true _, (resolveParam?_agrees _ s t hst).2⟩
  callMacro kind _ _ _ s t hst := ⟨Node.placed_true _, (callMacro_agrees _ kind _ s t hst).2⟩

/-! ## Statements -/

theorem registerMacro_agrees (start : Nat) (m : Macro) :
    Agrees _ (registerMacro start m) fun _ => True := by
  refine Agrees.get_bind (fun s => ?_) fun s t hst => by simp only [hst.visible]
  refine Agrees.bind (addReports_agrees _) fun _ _ => Agrees.modify fun _ _ h => ?_
  exact { h with visible := rfl, exported := by rw [h.exported] }

theorem registerOperator_agrees (start : Nat) (o : Operator) :
    Agrees _ (registerOperator start o) fun _ => True := by
  intro s t hst
  refine ⟨trivial, rfl, ?_⟩
  unfold registerOperator
  change ParserState.Agree
    ((if (s.visible.operators.add o).2.isAccepted then set _
      else if s.config.allowInvalidOperator then _ else _ : Parser Unit).run s).2
    ((if (t.visible.operators.add o).2.isAccepted then set _
      else if t.config.allowInvalidOperator then _ else _ : Parser Unit).run t).2
  rw [← hst.visible, ← hst.allowInvalidOperator]
  split
  · refine { hst with visible := rfl, exported := ?_ }
    rw [hst.exported]
    rfl
  · split
    · refine (Agrees.bind (addReports_agrees _) fun _ _ =>
        Agrees.modify fun _ _ h => ?_) s t hst |>.2.2
      exact { h with visible := by rw [h.visible], exported := by rw [h.exported] }
    · exact (addReports_agrees _ s t hst).2.2

theorem agrees_statement_rules : StatementRules (fun _ => True) (fun _ => True) Agrees Agrees where
  readers := agrees_rules
  lift := id
  bind := .bind
  push _ := .modify fun _ _ h => { h with root := by rw [h.root] }
  body _ hp hsame hf := by
    refine Agrees.bind (.modify fun _ _ h => { h with template := rfl }) fun _ _ => ?_
    refine Agrees.bind hp fun n hn => Agrees.get_bind (fun s => ?_) fun s t hst => by
      rw [hsame n s t hst.template]
    refine Agrees.bind (.modify fun _ _ h => { h with template := rfl }) fun _ _ => ?_
    exact hf n s hn fun t _ => t.placed_true
  registerMacro _ _ _ := registerMacro_agrees _ _
  registerOperator _ _ := registerOperator_agrees _ _
  forgetMacro _ := .modify fun _ _ h => { h with
    exported := by rw [h.exported], visible := by rw [h.visible] }
  forgetOperator _ _ := .modify fun _ _ h => { h with
    exported := by rw [h.exported], visible := by rw [h.visible] }

/-! ## Imports and whole scripts -/

theorem finishImport_agrees (start : Nat) (found : Option Definition) (purpose : Purpose) :
    Agrees _ (finishImport start found purpose) fun _ => True := by
  cases purpose with
  | forget => exact agrees_statement_rules.finishForget start found
  | use isPublic =>
    cases found with
    | none => exact .pure trivial
    | some d =>
      refine Agrees.get_bind (fun s => ?_) fun s t hst => by simp only [hst.visible]
      refine Agrees.bind (.modify fun _ _ h => { h with visible := rfl }) fun _ _ => ?_
      refine Agrees.bind (addReports_agrees _) fun _ _ =>
        Agrees.of_ite ?_ (agrees_rules.expectEnd _)
      refine Agrees.bind (.modify fun _ _ h => ?_) fun _ _ => agrees_rules.expectEnd _
      exact { h with exported := by rw [h.exported] }

theorem takeAnswer_agrees (start : Nat) (purpose : Purpose) (found : Option Definition)
    (rs : List Report) : Agrees _ (takeAnswer start purpose found rs) fun _ => True :=
  Agrees.bind (addReports_agrees _) fun _ _ => finishImport_agrees start found purpose

variable {σ : Type} (resolve : Resolver σ)

theorem turn_agree {s t : ParserState} (hst : s.Agree t) (i : σ) :
    (turn resolve s i).1 = (turn resolve t i).1
      ∧ (turn resolve s i).2.1.Agree (turn resolve t i).2.1
      ∧ (turn resolve s i).2.2 = (turn resolve t i).2.2 := by
  obtain ⟨-, hvalue, hnext⟩ := agrees_statement_rules.statement s t hst
  unfold turn
  generalize statement.run s = read at hvalue hnext
  generalize statement.run t = read' at hvalue hnext
  obtain ⟨r, s'⟩ := read
  obtain ⟨r', t'⟩ := read'
  simp only at hvalue hnext
  subst hvalue
  cases r with
  | endOfFile => exact ⟨rfl, hnext, rfl⟩
  | complete => exact ⟨rfl, hnext, rfl⟩
  | importing path start purpose =>
    cases ha : resolve path i with
    | mk answer j =>
      cases answer with
      | crashed =>
        simp only [ha]
        exact ⟨trivial, hnext, trivial⟩
      | answered found rs =>
        simp only [ha]
        exact ⟨trivial, (takeAnswer_agrees start purpose found rs s' t' hnext).2.2, trivial⟩

theorem statements_agree (n : Nat) {s t : ParserState} (hst : s.Agree t) (i : σ) :
    (statements resolve n s i).1 = (statements resolve n t i).1
      ∧ (statements resolve n s i).2.1.Agree (statements resolve n t i).2.1
      ∧ (statements resolve n s i).2.2 = (statements resolve n t i).2.2 := by
  induction n generalizing s t i with
  | zero => exact ⟨rfl, hst, rfl⟩
  | succ n ih =>
    obtain ⟨hprogress, hnext, hresolver⟩ := turn_agree resolve hst i
    unfold statements
    generalize turn resolve s i = r at hprogress hnext hresolver
    generalize turn resolve t i = r' at hprogress hnext hresolver
    obtain ⟨progress, s', j⟩ := r
    obtain ⟨progress', t', j'⟩ := r'
    simp only at hprogress hnext hresolver
    subst hprogress hresolver
    cases progress with
    | ended => exact ⟨rfl, hnext, rfl⟩
    | goesOn => exact ih hnext j
    | brokenDown => exact ⟨rfl, hnext, rfl⟩

theorem breakDown_agree {s t : ParserState} (hst : s.Agree t) :
    (breakDown s).Agree (breakDown t) :=
  addReports_agree rfl { hst with recovering := rfl }

theorem compile_agree {config config' : Config} {visible : Definition} {source : Source}
    (h : (start config visible source).Agree (start config' visible source)) (imports : σ) :
    let c := compile config resolve visible source imports
    let c' := compile config' resolve visible source imports
    c.1.root = c'.1.root ∧ c.1.definition = c'.1.definition
      ∧ settled c.1.reports = settled c'.1.reports ∧ c.2 = c'.2 := by
  obtain ⟨hended, hlast, hresolver⟩ := statements_agree resolve (source.length + 2) h imports
  obtain ⟨ended, s, i, hs⟩ : ∃ ended s i, statements resolve (source.length + 2)
      (start config visible source) imports = (ended, s, i) := ⟨_, _, _, rfl⟩
  obtain ⟨ended', t, j, ht⟩ : ∃ ended t j, statements resolve (source.length + 2)
      (start config' visible source) imports = (ended, t, j) := ⟨_, _, _, rfl⟩
  rw [hs, ht] at hended hlast hresolver
  simp only at hended hlast hresolver
  subst hended hresolver
  rw [compile_eq hs, compile_eq ht, hlast.exhausted]
  split
  · exact ⟨hlast.root, hlast.exported, hlast.reports, rfl⟩
  · exact ⟨hlast.root, hlast.exported, (breakDown_agree hlast).reports, rfl⟩

/-- Whatever becomes of repeated properties and of invalid escapes, a script comes to the same
values, with their positions, and the same definition, asks the resolver for the same imports, and
has the same reports but for those on repeated properties and on invalid escapes. -/
theorem compile_severities (config : Config) (allowDuplicateProperty : Bool)
    (unicodePolicy : UnicodePolicy) (visible : Definition) (source : Source) (imports : σ) :
    let c := compile config resolve visible source imports
    let c' := compile { config with allowDuplicateProperty, unicodePolicy } resolve visible source
      imports
    c'.1.root = c.1.root ∧ c'.1.definition = c.1.definition
      ∧ settled c'.1.reports = settled c.1.reports ∧ c'.2 = c.2 := by
  have hstart : (start { config with allowDuplicateProperty, unicodePolicy } visible source).Agree
      (start config visible source) :=
    ⟨rfl, rfl, Tokenizer.agree_ofChars _ _ _, rfl, rfl, rfl, rfl, rfl, rfl, rfl, rfl, rfl, rfl⟩
  exact compile_agree resolve hstart imports

end Parser

end ConfigScript
