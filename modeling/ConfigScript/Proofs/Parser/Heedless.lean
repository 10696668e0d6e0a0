import ConfigScript.Proofs.Parser.Rules

/-! # Reports made before

No reader looks at the reports that have been made: run after further ones, it gives the same value
and leads to the same state, with these reports in front of its own. -/

namespace ConfigScript

/-- The state in which the reports had been made before all others. -/
def ParserState.reporting (rs : List Report) (s : ParserState) : ParserState :=
  { s with reports := rs ++ s.reports }

namespace Parser

variable {α β : Type} {s : ParserState}

/-- Reports made before change nothing of what a parser does, and its value has a property. -/
def Heedless (α : Type) (p : Parser α) (Q : α → Prop) : Prop :=
  ∀ (rs : List Report) (s : ParserState),
    Q (p.run s).1 ∧ p.run (s.reporting rs) = ((p.run s).1, (p.run s).2.reporting rs)

theorem Heedless.yields {p : Parser α} {P : α → Prop} (hp : Heedless α p P)
    {Q : α → ParserState → Prop} (h : Yields p s Q) (rs : List Report) :
    Yields p (s.reporting rs) fun a t => ∃ u, t = u.reporting rs ∧ Q a u := by
  rw [Yields, (hp rs s).2]
  exact ⟨_, rfl, h⟩

theorem Heedless.pure {a : α} {Q : α → Prop} (h : Q a) : Heedless α (pure a) Q :=
  fun _ _ => ⟨h, rfl⟩

theorem Heedless.bind {p : Parser α} {f : α → Parser β} {P : α → Prop} {Q : β → Prop}
    (hp : Heedless α p P) (hf : ∀ a, P a → Heedless β (f a) Q) : Heedless β (p >>= f) Q := by
  intro rs s
  obtain ⟨ha, hrun⟩ := hp rs s
  obtain ⟨hb, hnext⟩ := hf _ ha rs (p.run s).2
  exact ⟨hb, (run_bind hrun).trans hnext⟩

theorem Heedless.get_bind {f : ParserState → Parser β} {Q : β → Prop}
    (hf : ∀ s, Heedless β (f s) Q) (hsame : ∀ rs s, f (s.reporting rs) = f s) :
    Heedless β (get >>= f) Q := by
  intro rs s
  obtain ⟨hb, hrun⟩ := hf s rs s
  refine ⟨hb, ?_⟩
  change (f (s.reporting rs)).run (s.reporting rs) = _
  rw [hsame]
  exact hrun

theorem Heedless.of_ite {c : Prop} [Decidable c] {p q : Parser α} {Q : α → Prop}
    (hp : Heedless α p Q) (hq : Heedless α q Q) : Heedless α (if c then p else q) Q :=
  Rules.of_ite (fun _ => hp) fun _ => hq

theorem Heedless.modify {g : ParserState → ParserState}
    (h : ∀ rs s, g (s.reporting rs) = (g s).reporting rs) :
    Heedless _ (modify g) fun _ => True :=
  fun rs s => ⟨trivial, Prod.ext rfl (h rs s)⟩

theorem Heedless.turns {step : α → Parser (Turn α)} {I : α → Prop}
    (hstep : ∀ a, I a → Heedless _ (step a) fun r => r.Meets I I) (n : Nat) {a : α} (ha : I a) :
    Heedless α (turns step n a) I := by
  induction n generalizing a with
  | zero =>
    exact Heedless.bind (P := fun _ => True) (.modify fun _ _ => rfl) fun _ _ => .pure ha
  | succ n ih =>
    refine Heedless.bind (hstep a ha) fun r hr => ?_
    cases r with
    | again b => exact ih hr
    | done b => exact .pure hr

/-! ## The steps of readers -/

theorem addReports_heedless (new : List Report) : Heedless _ (addReports new) fun _ => True := by
  refine .modify fun rs s => ?_
  change (if s.recovering then _ else _) = _
  split
  · rfl
  · simp only [ParserState.reporting, List.append_assoc]

theorem reportDuplicate_heedless (key : String) (position : Nat) :
    Heedless _ (reportDuplicate key position) fun _ => True :=
  .get_bind (fun _ => addReports_heedless _) fun _ _ => rfl

theorem next_heedless (skipBreaks : Bool) (mode : ReadMode) :
    Heedless _ (next skipBreaks mode) fun _ => True := by
  intro rs s
  have hadd := (addReports_heedless
    (s.tokenizer.next skipBreaks mode s.visible.operators).2.takeReports.1 rs
    { s with
      tokenizer := (s.tokenizer.next skipBreaks mode s.visible.operators).2.takeReports.2 }).2
  refine ⟨trivial, Prod.ext rfl ?_⟩
  exact congrArg (fun r => r.2) hadd

theorem resolveParam?_heedless (n : Node) : Heedless _ (resolveParam? n) fun _ => True := by
  refine .get_bind (fun s => ?_) fun _ _ => rfl
  split
  · exact .pure trivial
  · refine Heedless.bind (P := fun _ => True) (.modify fun _ _ => rfl) fun _ _ => ?_
    exact Heedless.bind (addReports_heedless _) fun _ _ => .pure trivial

theorem substitute_heedless : Heedless _ substitute fun _ => True :=
  Heedless.bind (P := fun _ => True) (.modify fun _ _ => rfl) fun _ _ => .pure trivial

theorem expanded_heedless (name : String) (position : Nat) (r : MacroResult) :
    Heedless _ (expanded name position r) fun _ => True := by
  cases r with
  | produced n => exact .pure trivial
  | refused => exact substitute_heedless
  | fault f => exact Heedless.bind (addReports_heedless _) fun _ _ => substitute_heedless
  | crashed message => exact Heedless.bind (addReports_heedless _) fun _ _ => substitute_heedless

theorem callMacro_heedless (n : Node) (kind : MacroKind) (position : Nat) :
    Heedless _ (callMacro n kind position) fun _ => True := by
  refine .get_bind (fun s => ?_) fun _ _ => rfl
  refine .of_ite (.pure trivial) (Heedless.bind (addReports_heedless _) fun _ _ => ?_)
  split
  · exact substitute_heedless
  · exact Heedless.bind (P := fun _ => True) (.modify fun _ _ => rfl) fun _ _ => .pure trivial
  · exact Heedless.bind (addReports_heedless _) fun _ _ => expanded_heedless _ _ _

/-- No reader of values looks at the reports. -/
theorem heedless_rules : Rules (fun _ => True) Heedless where
  pure := .pure
  bind := .bind
  loop hstep ha := .get_bind (fun _ => Heedless.turns hstep _ ha) fun _ _ => rfl
  next := next_heedless
  discard := .modify fun _ _ => rfl
  rewind _ := .modify fun _ _ => rfl
  bound _ _ := ⟨trivial, rfl⟩
  exhaust := .modify fun _ _ => rfl
  levels hf := .get_bind (fun _ => hf _) fun _ _ => rfl
  reports _ := addReports_heedless _
  duplicate key _ _ := reportDuplicate_heedless key _
  noteAccess _ := .modify fun _ _ => rfl
  noteLost _ := .modify fun _ _ => rfl
  substitute rs s := ⟨Node.placed_true _, (substitute_heedless rs s).2⟩
  outside hp rs s := by
    obtain ⟨hq, hrun⟩ := hp rs { s with template := none }
    refine ⟨hq, Prod.ext ?_ ?_⟩
    · exact congrArg (fun r => r.1) hrun
    · exact congrArg (fun r => { r.2 with template := s.template }) hrun
  skipping hp rs s := by
    obtain ⟨hq, hrun⟩ := hp rs { s with recovering := true }
    refine ⟨hq, Prod.ext ?_ ?_⟩
    · exact congrArg (fun r => r.1) hrun
    · exact congrArg (fun r => { r.2 with recovering := s.recovering }) hrun
  resolveParam? _ rs s := ⟨Rules.found_true _, (resolveParam?_heedless _ rs s).2⟩
  callMacro kind _ _ _ rs s := ⟨Node.placed_true _, (callMacro_heedless _ kind _ rs s).2⟩

end Parser

end ConfigScript
