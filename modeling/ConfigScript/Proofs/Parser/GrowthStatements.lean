import ConfigScript.Parser.Script
import ConfigScript.Proofs.Parser.GrowthValues
import ConfigScript.Proofs.Parser.StatementProgress
import ConfigScript.Proofs.Parser.StatementRules

/-! # What reading statements adds

Between statements no template is under construction. What a script exports has checked operators,
if what it imports has. -/

namespace ConfigScript.Parser

variable {α : Type} {R R' : ParserState → ParserState → Prop} {checked : Prop}

/-- A relation holds along statements if it holds wherever values are read and along the steps that
only statements take. Around the body of a macro, that is setting up a template and dropping it. -/
theorem reaches_rules [IsPreorder ParserState R] (readers : Rules (fun _ => True) (Reaches R'))
    (hvalue : ∀ {s t}, R' s t → R s t)
    (hpush : ∀ n, Moves R (modify fun s => { s with root := s.root ++ [n] }))
    (hbody : ∀ {s t u}, R' { s with template := some t } u → R s { u with template := none })
    (hregister : ∀ start {m}, Macro.checkHead m.head = .ok () → Moves R (registerMacro start m))
    (hadd : ∀ start {o}, o.Valid → Moves R (registerOperator start o))
    (hforget : ∀ signature, Moves R (forgetMacro signature))
    (hremove : ∀ name keyword, Moves R (forgetOperator name keyword)) :
    StatementRules (fun _ => True) (fun _ => True) (Reaches R') (Reaches R) where
  readers := readers
  lift hp := fun s => (hp s).imp_left hvalue
  bind := Reaches.bind
  push _ := (hpush _).reaches fun _ => trivial
  body _ hp _ hf := by
    refine fun s => Yields.modify_bind (Yields.bind (hp _) fun n u hu => Yields.get_bind ?_)
    refine Yields.modify_bind ((hf n u hu.2 (fun t _ => t.placed_true) _).mono fun _ v hv => ?_)
    exact ⟨trans_of R (hbody hu.1) hv.1, hv.2⟩
  registerMacro hc _ _ := (hregister _ hc).reaches fun _ => trivial
  registerOperator ho _ := (hadd _ ho).reaches fun _ => trivial
  forgetMacro _ := (hforget _).reaches fun _ => trivial
  forgetOperator _ _ := (hremove _ _).reaches fun _ => trivial

theorem expectEnd_extends (message : String) : Moves Extends (expectEnd message) :=
  (extends_rules.expectEnd message).moves

section

variable [IsPreorder ParserState R] {found : Option Definition}
  (hrules : StatementRules (fun _ => True) (fun _ => True) (Reaches Extends) (Reaches R))
  (hvisible : ∀ d ∈ found, ∀ s : ParserState, R s { s with visible := (s.visible.copy d).1 })
  (hexported : ∀ d ∈ found, ∀ s : ParserState, R s { s with exported := (s.exported.copy d).1 })
include hrules

omit [IsPreorder ParserState R] in
theorem moves_of_extends {p : Parser α} (hp : Moves Extends p) : Moves R p :=
  (hrules.lift (hp.reaches (Q := fun _ => True) fun _ => trivial)).moves

include hvisible hexported

theorem moves_finishImport (start : Nat) (purpose : Purpose) :
    Moves R (finishImport start found purpose) := by
  cases purpose with
  | forget => exact (hrules.finishForget start found).moves
  | use isPublic =>
    cases found with
    | none => exact Moves.pure _
    | some d =>
      have hend (message : String) : Moves R (expectEnd message) :=
        moves_of_extends hrules (expectEnd_extends message)
      refine fun s => Yields.get_bind (Yields.modify_bind ?_)
      refine Yields.mono (P := fun _ t => R { s with visible := (s.visible.copy d).1 } t) ?_
        fun _ t ht => trans_of R (hvisible d rfl s) ht
      refine Moves.bind (moves_of_extends hrules (addReports_extends _))
        (fun _ => Moves.ite ?_ (hend _)) _
      exact Moves.bind (Moves.modify (hexported d rfl)) fun _ => hend _

theorem moves_takeAnswer (start : Nat) (purpose : Purpose) (rs : List Report) :
    Moves R (takeAnswer start purpose found rs) :=
  Moves.bind (moves_of_extends hrules (addReports_extends _)) fun _ =>
    moves_finishImport hrules hvisible hexported start purpose

end

/-! ## What grows -/

/-- A state that reading statements can lead to, where imports may be taken to be checked. -/
structure Grows (checked : Prop) (s t : ParserState) : Prop where
  config : t.config = s.config
  recovering : t.recovering = s.recovering
  template : s.template = none → t.template = none
  reports : s.reports <+: t.reports
  exported : checked → s.exported.operators.Valid → t.exported.operators.Valid
  waiting : s.tokenizer.reports = [] → t.tokenizer.reports = []

theorem Grows.refl (s : ParserState) : Grows checked s s :=
  ⟨rfl, rfl, id, List.prefix_rfl, fun _ => id, id⟩

theorem Grows.trans {s t u : ParserState} (h : Grows checked s t) (g : Grows checked t u) :
    Grows checked s u :=
  ⟨g.config.trans h.config, g.recovering.trans h.recovering, fun hs => g.template (h.template hs),
    h.reports.trans g.reports, fun hc hs => g.exported hc (h.exported hc hs),
    fun hs => g.waiting (h.waiting hs)⟩

instance : IsPreorder ParserState (Grows checked) where
  refl := Grows.refl
  trans _ _ _ := Grows.trans

theorem Extends.grows {s t : ParserState} (h : Extends s t) : Grows checked s t :=
  ⟨h.config, h.recovering, h.template, h.reports, fun _ hs => h.exported ▸ hs, h.waiting⟩

theorem Moves.grows {p : Parser α} (hp : Moves Extends p) : Moves (Grows checked) p :=
  hp.mono fun _ _ h => h.grows

theorem registerMacro_grows (start : Nat) (m : Macro) :
    Moves (Grows checked) (registerMacro start m) := by
  refine Moves.get_bind fun s => Moves.bind (addReports_extends _).grows fun _ => ?_
  exact Moves.modify fun s => ⟨rfl, rfl, id, List.prefix_rfl, fun _ => id, id⟩

theorem registerOperator_grows (start : Nat) {o : Operator} (ho : o.Valid) :
    Moves (Grows checked) (registerOperator start o) := by
  intro s
  unfold registerOperator
  refine Yields.get_bind (Yields.of_ite (fun _ => ?_) fun _ =>
    Yields.of_ite (fun _ => ?_) fun _ => ?_)
  · exact ⟨rfl, rfl, id, List.prefix_rfl, fun _ h => OperatorTable.Valid.add h ho, id⟩
  · refine Yields.bind (report_extends _ s) fun _ t ht => Yields.of_modify ?_
    exact ht.grows.trans
      ⟨rfl, rfl, id, List.prefix_rfl, fun _ h => OperatorTable.Valid.replace h ho, id⟩
  · exact (report_extends _).grows s

theorem grows_rules :
    StatementRules (fun _ => True) (fun _ => True) (Reaches Extends) (Reaches (Grows checked)) := by
  refine reaches_rules extends_rules Extends.grows (fun _ => ?_) (fun hu => ?_)
    (fun start _ _ => registerMacro_grows start _) registerOperator_grows (fun _ => ?_)
    fun name keyword => ?_
  · exact Moves.modify fun _ => ⟨rfl, rfl, id, List.prefix_rfl, fun _ => id, id⟩
  · exact ⟨hu.config, hu.recovering, fun _ => rfl, hu.reports, fun _ h => hu.exported ▸ h,
      hu.waiting⟩
  · exact Moves.modify fun _ => ⟨rfl, rfl, id, List.prefix_rfl, fun _ => id, id⟩
  · exact Moves.modify fun _ =>
      ⟨rfl, rfl, id, List.prefix_rfl, fun _ h => OperatorTable.Valid.remove h name keyword, id⟩

theorem finishImport_grows (start : Nat) {found : Option Definition}
    (hf : checked → OperatorsChecked found) (purpose : Purpose) :
    Moves (Grows checked) (finishImport start found purpose) :=
  moves_finishImport grows_rules (fun _ _ _ => ⟨rfl, rfl, id, List.prefix_rfl, fun _ => id, id⟩)
    (fun d hd _ =>
      ⟨rfl, rfl, id, List.prefix_rfl, fun hc h => copy_valid h (hf hc d hd), id⟩) start purpose

theorem takeAnswer_grows (start : Nat) (purpose : Purpose) {found : Option Definition}
    (hf : checked → OperatorsChecked found) (rs : List Report) :
    Moves (Grows checked) (takeAnswer start purpose found rs) :=
  Moves.bind (addReports_extends _).grows fun _ => finishImport_grows _ hf _

theorem statement_grows : Moves (Grows checked) statement := grows_rules.statement.moves

end ConfigScript.Parser
