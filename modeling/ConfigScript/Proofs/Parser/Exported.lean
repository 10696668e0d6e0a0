import ConfigScript.Proofs.Import.Resolved
import ConfigScript.Proofs.Operator.Offers
import ConfigScript.Proofs.Parser.Agreement
import ConfigScript.Proofs.Parser.Termination

/-! # What a script exports

Statements define operators for the script and for those that import it at the same time, and
withdraw them from both. A public import passes on what it brings even where the script itself
cannot take it over; no other statement exports what the script cannot use. -/

namespace ConfigScript.Parser

open OperatorTable Definition

variable {σ : Type} {resolve : Resolver σ} {s t u : ParserState} {i j k : σ}
  {P : Operator → Prop}

/-- What is exported is visible, up to some operators. -/
def Backed (P : Operator → Prop) (s : ParserState) : Prop :=
  ∀ o ∈ s.exported.operators.operators, s.visible.operators.Offers o ∨ P o

/-- What is exported stays visible. -/
def KeepsBacked (P : Operator → Prop) (s t : ParserState) : Prop := Backed P s → Backed P t

instance : IsPreorder ParserState (KeepsBacked P) where
  refl _ := id
  trans _ _ _ h g := g ∘ h

theorem Extends.keepsBacked (h : Extends s t) : KeepsBacked P s t := by
  intro hs
  rw [Backed, h.exported, h.visible]
  exact hs

theorem Moves.keepsBacked {α : Type} {p : Parser α} (hp : Moves Extends p) :
    Moves (KeepsBacked P) p :=
  hp.mono fun _ _ h => h.keepsBacked

/-! ## Single statements -/

theorem registerMacro_keepsBacked (start : Nat) (m : Macro) :
    Moves (KeepsBacked P) (registerMacro start m) := by
  refine fun s => Yields.get_bind (Yields.bind (addReports_extends _ s) fun _ t ht => ?_)
  refine Yields.of_modify fun hs o ho => hs o ?_
  rwa [← ht.exported]

theorem registerOperator_keepsBacked (start : Nat) (o : Operator) :
    Moves (KeepsBacked P) (registerOperator start o) := by
  intro s
  unfold registerOperator
  refine Yields.get_bind (Yields.of_ite (fun ha => ?_) fun _ =>
    Yields.of_ite (fun _ => ?_) fun _ => ?_)
  · intro hs p hp
    rcases mem_add hp with rfl | hp
    · exact .inl (offers_add ha)
    · exact (hs p hp).imp_left (Offers.add · o)
  · refine Yields.bind (report_extends _ s) fun _ t ht => Yields.of_modify fun hs p hp => ?_
    rcases mem_replace hp with rfl | ⟨hp, hx⟩
    · exact .inl (offers_replace _ _)
    · exact (ht.keepsBacked hs p hp).imp_left (Offers.replace · hx)
  · exact (report_extends _).keepsBacked s

theorem forgetOperator_keepsBacked (name : String) (keyword : Bool) :
    Moves (KeepsBacked P) (forgetOperator name keyword) :=
  Moves.modify fun _ hs p hp =>
    (hs p (mem_remove hp).1).imp_left (Offers.remove · (mem_remove hp).2)

theorem backed_rules : StatementRules (fun _ => True) (fun _ => True) (Reaches Extends)
    (Reaches (KeepsBacked P)) :=
  reaches_rules extends_rules Extends.keepsBacked (fun _ => Moves.modify fun _ => id)
    (fun hu hs => hu.keepsBacked hs) (fun start _ _ => registerMacro_keepsBacked start _)
    (fun start _ _ => registerOperator_keepsBacked start _) (fun _ => Moves.modify fun _ => id)
    forgetOperator_keepsBacked

/-! ## Without imports -/

/-- If all that is visible is exported, it stays so. -/
def KeepsAlike (s t : ParserState) : Prop := s.exported = s.visible → t.exported = t.visible

instance : IsPreorder ParserState KeepsAlike where
  refl _ := id
  trans _ _ _ h g := g ∘ h

theorem Extends.keepsAlike (h : Extends s t) : KeepsAlike s t :=
  fun hs => h.exported.trans (hs.trans h.visible.symm)

theorem registerMacro_keepsAlike (start : Nat) (m : Macro) :
    Moves KeepsAlike (registerMacro start m) := by
  refine fun s => Yields.get_bind (Yields.bind (addReports_extends _ s) fun _ t ht => ?_)
  exact Yields.of_modify fun hs =>
    congrArg (fun d : Definition => (d.addMacro m).1) (ht.exported.trans hs)

theorem registerOperator_keepsAlike (start : Nat) (o : Operator) :
    Moves KeepsAlike (registerOperator start o) := by
  intro s
  unfold registerOperator
  refine Yields.get_bind (Yields.of_ite (fun _ hs => ?_) fun _ =>
    Yields.of_ite (fun _ => ?_) fun _ => ?_)
  · exact congrArg (fun d : Definition => { d with operators := (d.operators.add o).1 }) hs
  · refine Yields.bind (report_extends _ s) fun _ t ht => Yields.of_modify fun hs => ?_
    exact congrArg (fun d : Definition => { d with operators := d.operators.replace o })
      (ht.keepsAlike hs)
  · exact (report_extends _ s).mono fun _ _ h => h.keepsAlike

theorem alike_rules : StatementRules (fun _ => True) (fun _ => True) (Reaches Extends)
    (Reaches KeepsAlike) :=
  reaches_rules extends_rules Extends.keepsAlike (fun _ => Moves.modify fun _ => id)
    (fun hu hs => hu.keepsAlike hs) (fun start _ _ => registerMacro_keepsAlike start _)
    (fun start _ _ => registerOperator_keepsAlike start _)
    (fun _ => Moves.modify fun _ hs => by simp only [hs])
    fun _ _ => Moves.modify fun _ hs => by simp only [hs]

/-- But for imports, a script that exports all that it can use goes on to do so. -/
theorem statement_keepsAlike : Moves KeepsAlike statement := alike_rules.statement.moves

/-! ## Imports -/

/-- An import keeps up what is exported, up to the operators that it brings and that cannot be taken
over. -/
theorem finishImport_keepsBacked (start : Nat) (found : Option Definition) (purpose : Purpose)
    (h : purpose = .use true → ∀ d ∈ found, ∀ o ∈
      s.visible.operators.refused d.operators.operators, P o) :
    Yields (finishImport start found purpose) s fun _ t => KeepsBacked P s t := by
  cases purpose with
  | forget => exact (backed_rules.finishForget start found).moves s
  | use isPublic =>
    cases found with
    | none => exact id
    | some d =>
      have hend (message : String) : Moves (KeepsBacked P) (expectEnd message) :=
        (expectEnd_extends message).keepsBacked
      refine Yields.get_bind (Yields.modify_bind (Yields.bind
        (addReports_extends _ _) fun _ t ht => ?_))
      have hvisible : t.visible = (s.visible.copy d).1 := ht.visible
      have hexported : t.exported = s.exported := ht.exported
      have hboth (o : Operator) (ho : s.visible.operators.Offers o ∨ P o) :
          t.visible.operators.Offers o ∨ P o := by
        rw [hvisible]
        exact ho.imp_left (offers_copy · d)
      cases isPublic with
      | false =>
        refine (hend _ t).mono fun _ u hu hs => hu fun o ho => hboth o (hs o ?_)
        rwa [hexported] at ho
      | true =>
        refine Yields.modify_bind ((hend _ _).mono fun _ u hu hs => hu fun o ho => ?_)
        change o ∈ (t.exported.copy d).1.operators.operators at ho
        change t.visible.operators.Offers o ∨ P o
        rcases Definition.mem_copy ho with ho | ho
        · exact hboth o (hs o (hexported ▸ ho))
        · rw [hvisible]
          exact (copy_offers ho).imp_right (h rfl d rfl o)

theorem takeAnswer_keepsBacked (start : Nat) (purpose : Purpose) (found : Option Definition)
    (rs : List Report) (h : purpose = .use true → ∀ d ∈ found, ∀ o ∈
      s.visible.operators.refused d.operators.operators, P o) :
    Yields (takeAnswer start purpose found rs) s fun _ t => KeepsBacked P s t := by
  refine Yields.bind (addReports_extends _ s) fun _ t ht => ?_
  refine (finishImport_keepsBacked start found purpose ?_).mono fun _ u hu => hu ∘ ht.keepsBacked
  rwa [ht.visible]

theorem takeAnswer_warns (start : Nat) (isPublic : Bool) (d : Definition) (rs : List Report)
    (hs : s.recovering = false) :
    Yields (takeAnswer start (.use isPublic) (some d) rs) s fun _ t =>
      ∀ o ∈ s.visible.operators.refused d.operators.operators, ∃ r ∈ t.reports, IsRefusal o r := by
  refine Yields.bind (addReports_extends _ s) fun _ t ht => ?_
  have htold : Yields (addReports ((t.visible.copy d).2.map (Report.orAt (some start))))
      { t with visible := (t.visible.copy d).1 } fun _ u =>
      ∀ o ∈ s.visible.operators.refused d.operators.operators, ∃ r ∈ u.reports, IsRefusal o r := by
    refine Yields.of_modify fun o ho => ?_
    obtain ⟨r, hr, hwarn⟩ := copy_warns (ht.visible ▸ ho : o ∈ t.visible.operators.refused _)
    simp only [ht.recovering, hs, Bool.false_eq_true, if_false]
    exact ⟨_, List.mem_append_right _ (List.mem_map_of_mem (List.mem_map_of_mem hr)), hwarn⟩
  refine Yields.get_bind (Yields.modify_bind (Yields.bind htold fun _ u hu => ?_))
  have hend (v : ParserState) (hv : v.reports = u.reports) :
      Yields (expectEnd "Expected ',' or newline after use statement") v fun _ t =>
        ∀ o ∈ s.visible.operators.refused d.operators.operators,
          ∃ r ∈ t.reports, IsRefusal o r := by
    refine (expectEnd_extends _ v).mono fun _ w hw o ho => ?_
    obtain ⟨r, hr, hwarn⟩ := hu o ho
    exact ⟨r, hw.reports.subset (hv ▸ hr), hwarn⟩
  exact Yields.of_ite (fun _ => Yields.modify_bind (hend _ rfl)) fun _ => hend u rfl

/-! ## Runs -/

theorem Reached.trans (h : Reached resolve s i t j) (g : Reached resolve t j u k) :
    Reached resolve s i u k := by
  induction g with
  | start => exact h
  | turn _ ht ih => exact ih.turn ht

/-- A public import has been answered with an operator that the script could not take over, which
has been warned about. -/
def LeftOut (resolve : Resolver σ) (s : ParserState) (i : σ) (t : ParserState) (j : σ)
    (o : Operator) : Prop :=
  ∃ u k path start v d rs l, Reached resolve s i u k
    ∧ statement.run u = (.importing path start (.use true), v)
    ∧ resolve path k = (.answered (some d) rs, l)
    ∧ o ∈ v.visible.operators.refused d.operators.operators
    ∧ Reached resolve ((takeAnswer start (.use true) (some d) rs).run v).2 l t j
    ∧ ∃ r ∈ t.reports, IsRefusal o r

theorem LeftOut.turn {o : Operator} (h : LeftOut resolve s i t j o)
    (ht : turn resolve t j = (.goesOn, u, k)) : LeftOut resolve s i u k o := by
  obtain ⟨u', k', path, start, v, d, rs, l, hu, hrun, ha, ho, hreached, r, hr, hwarn⟩ := h
  have hg : Grows False t (Parser.turn resolve t j).2.1 := turn_grows False.elim t j
  rw [ht] at hg
  exact ⟨u', k', path, start, v, d, rs, l, hu, hrun, ha, ho, hreached.turn ht, r,
    hg.reports.subset hr, hwarn⟩

theorem statement_keepsBacked : Moves (KeepsBacked P) statement := backed_rules.statement.moves

/-- Between statements, what is exported is visible or has been left out by a public import. -/
theorem Reached.backed (h : Reached resolve s i t j) (hrecovering : s.recovering = false)
    (hs : ∀ o ∈ s.exported.operators.operators, s.visible.operators.Offers o) :
    Backed (LeftOut resolve s i t j) t := by
  induction h with
  | start => exact fun o ho => .inl (hs o ho)
  | @turn t u j k hreached ht ih =>
    have hlater : Backed (LeftOut resolve s i u k) t :=
      fun o ho => (ih o ho).imp_right (LeftOut.turn · ht)
    have hread : Backed (LeftOut resolve s i u k) (statement.run t).2 :=
      statement_keepsBacked t hlater
    have hg : Grows False t (statement.run t).2 := statement_grows t
    have hturned := turn_turned resolve t j
    rw [ht] at hturned
    cases hturned with
    | complete _ hrun =>
      rw [hrun] at hread
      exact hread
    | @answered v path start purpose found rs k _ hrun ha =>
      rw [hrun] at hread hg
      refine takeAnswer_keepsBacked start purpose found rs ?_ hread
      rintro rfl d hd o ho
      rw [Option.mem_def] at hd
      subst hd
      have hskip : v.recovering = false :=
        hg.recovering.trans (hreached.grows.recovering.trans hrecovering)
      exact ⟨t, j, path, start, v, d, rs, k, hreached, hrun, ha, ho, .start,
        takeAnswer_warns start true d rs hskip o ho⟩

theorem statements_last (resolve : Resolver σ) (n : Nat) (s : ParserState) (i : σ) :
    ∃ t j, Reached resolve s i t j
      ∧ ((statements resolve n s i).2.1 = t
        ∨ (statements resolve n s i).2.1 = (statement.run t).2) := by
  induction n generalizing s i with
  | zero => exact ⟨s, i, .start, .inl rfl⟩
  | succ n ih =>
    have hturned := turn_turned resolve s i
    unfold statements
    generalize hr : turn resolve s i = r at hturned
    obtain ⟨progress, u, k⟩ := r
    cases progress with
    | goesOn =>
      obtain ⟨t, j, hreached, hlast⟩ := ih u k
      exact ⟨t, j, (Reached.start.turn hr).trans hreached, hlast⟩
    | ended =>
      cases hturned with
      | ended _ hrun => exact ⟨s, i, .start, .inr (by rw [hrun])⟩
    | brokenDown =>
      cases hturned with
      | brokenDown _ hrun _ => exact ⟨s, i, .start, .inr (by rw [hrun])⟩

/-- Between any two statements of a script, whatever its imports are answered with, the script can
use each operator that it exports, by an equal definition under the same spelling and fixity. The
same holds at its end. The exceptions are operators of public imports that were warned about as not
imported, as something stood against them in what was visible. -/
theorem exported_visible (config : Config) (resolve : Resolver σ) (visible : Definition)
    (source : Source) (imports : σ) :
    let s := start config visible source
    (∀ t j, Reached resolve s imports t j → ∀ o ∈ t.exported.operators.operators,
        t.visible.operators.Offers o ∨ LeftOut resolve s imports t j o)
      ∧ ∃ t j, Reached resolve s imports t j
        ∧ ∀ o ∈ (compile config resolve visible source imports).1.definition.operators.operators,
          (statements resolve (source.length + 2) s imports).2.1.visible.operators.Offers o
            ∨ LeftOut resolve s imports t j o := by
  intro s
  have hbacked {t : ParserState} {j : σ} (h : Reached resolve s imports t j) :
      Backed (LeftOut resolve s imports t j) t :=
    h.backed rfl (by simp [s, start])
  refine ⟨fun t j h => hbacked h, ?_⟩
  obtain ⟨t, j, h, hlast⟩ := statements_last resolve (source.length + 2) s imports
  refine ⟨t, j, h, ?_⟩
  have hend : Backed (LeftOut resolve s imports t j)
      (statements resolve (source.length + 2) s imports).2.1 := by
    rcases hlast with hlast | hlast
    · rw [hlast]
      exact hbacked h
    · rw [hlast]
      exact statement_keepsBacked t (hbacked h)
  obtain ⟨ended, u, k, hrun⟩ : ∃ ended u k,
      statements resolve (source.length + 2) s imports = (ended, u, k) := ⟨_, _, _, rfl⟩
  rw [hrun] at hend ⊢
  rw [compile_eq hrun]
  split
  · exact hend
  · exact hend

/-- After the first of two statements. -/
theorem exported_visible_between :
    let resolve : Resolver Unit := fun _ i => (.answered none [], i)
    let s := start {} {} (Source.ofText "operator @ as binary, operator @ as prefix")
    let t := turn resolve s ()
    Reached resolve s () t.2.1 t.2.2 ∧ t.2.1.exported.operators.operators.length = 1
      ∧ ∀ o ∈ t.2.1.exported.operators.operators,
        t.2.1.visible.operators.Offers o ∨ LeftOut resolve s () t.2.1 t.2.2 o := by
  intro resolve s t
  have hgoes : t.1 = .goesOn := by decide +kernel
  have hreached : Reached resolve s () t.2.1 t.2.2 := Reached.start.turn (Prod.ext hgoes rfl)
  exact ⟨hreached, by decide +kernel, (exported_visible {} resolve {} _ ()).1 _ _ hreached⟩

/-- A script that has an operator as a binary one, and passes on another script's definition of it
as a postfix one. -/
theorem exported_not_visible :
    let e : Environment :=
      { scripts := [.ofTexts [("a", "operator @ as binary"), ("b", "operator @ as postfix")]] }
    let source := Source.ofText "use a\nuse public b"
    let last := statements (Session.imports e e.depth) (source.length + 2)
      (start e.config {} source) {}
    ¬∀ o ∈ (e.read {} source {}).1.definition.operators.operators,
      last.2.1.visible.operators.Offers o := by
  intro e source last h
  have hexported : (e.read {} source {}).1.definition.operators.operators
      = [⟨"@", false, .postfixed, none, .plain, Fixity.defaultPriority .postfixed⟩] := by
    decide +kernel
  have hvisible : last.2.1.visible.operators.get? "@" false .postfixed = none := by decide +kernel
  obtain ⟨o, ho, -⟩ := h _ (hexported ▸ List.mem_singleton_self _)
  rw [hvisible] at ho
  exact Option.some_ne_none o ho.symm

end ConfigScript.Parser
