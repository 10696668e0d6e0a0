import ConfigScript.Parser.Value
import ConfigScript.Proofs.Macro.Known
import ConfigScript.Proofs.Parser.Outcome

/-! # Errors are told

Reports are dropped while the parser skips, and the error value may stand for a construct. Both
happen only once an error is on record, which the readers of values keep up. -/

namespace ConfigScript.Parser

variable {α β : Type} {told : Bool}

/-- What went wrong is on record: there is an error among the reports if the parser skips, if it
has put the error value anywhere, or if `told` says so. The macros it may apply are trusted. -/
structure Told (told : Bool) (s : ParserState) : Prop where
  recorded : s.recovering = true ∨ s.substituted = true ∨ told = true → hasError s.reports = true
  visible : s.visible.macros.Trusted
  exported : s.exported.macros.Trusted
  template : ∀ t, s.template = some t → t.Trusted

theorem Told.weaken {s : ParserState} (h : Told true s) : Told told s :=
  ⟨fun _ => h.recorded (.inr (.inr rfl)), h.2, h.3, h.4⟩

/-- A parser that keeps up what is on record. -/
def Keeps (told : Bool) (p : Parser α) : Prop :=
  ∀ s, Told told s → Yields p s fun _ t => Told told t

/-- A parser that puts an error on record. -/
def Tells (p : Parser α) : Prop := ∀ told s, Told told s → Yields p s fun _ t => Told true t

/-! ## Putting parsers together -/

theorem Keeps.pure (a : α) : Keeps told (pure a) := fun _ h => h

theorem Keeps.bind {p : Parser α} {f : α → Parser β} (hp : Keeps told p)
    (hf : ∀ a, Keeps told (f a)) : Keeps told (p >>= f) :=
  fun s h => Yields.bind (hp s h) fun a t ht => hf a t ht

theorem Keeps.ite {c : Prop} [Decidable c] {p q : Parser α} (hp : Keeps told p)
    (hq : Keeps told q) : Keeps told (if c then p else q) :=
  fun s h => Yields.of_ite (fun _ => hp s h) fun _ => hq s h

/-- After an error, what follows may rely on it. -/
theorem Tells.bind {p : Parser α} {f : α → Parser β} (hp : Tells p)
    (hf : ∀ a, Keeps true (f a)) : Keeps told (p >>= f) :=
  fun s h => Yields.bind (hp told s h) fun a t ht =>
    (hf a t ht).mono fun _ _ hu => hu.weaken

theorem Tells.keeps {p : Parser α} (hp : Tells p) : Keeps told p :=
  fun s h => (hp told s h).mono fun _ _ ht => ht.weaken

theorem Keeps.get_bind {f : ParserState → Parser β}
    (hf : ∀ s, Told told s → Keeps told (f s)) : Keeps told (get >>= f) :=
  fun s h => Yields.get_bind (hf s h s h)

theorem Keeps.modify {g : ParserState → ParserState} (hg : ∀ s, Told told s → Told told (g s)) :
    Keeps told (modify g) :=
  fun s h => Yields.of_modify (hg s h)

theorem Keeps.loop {step : α → Parser (Turn α)} (hstep : ∀ a, Keeps told (step a)) (a : α) :
    Keeps told (loop step a) := by
  intro s h
  refine Yields.get_bind (Yields.of_turns_keep (I := fun _ => Told told) (fun a s h => ?_)
    (fun _ s h => ⟨h.1, h.2, h.3, h.4⟩) h)
  refine (hstep a s h).mono fun r t ht => ?_
  cases r with
  | again b => exact ht
  | done b => exact ht

theorem Keeps.outside {p : Parser α} (hp : Keeps told p) : Keeps told (outsideTemplate p) := by
  intro s h
  refine Yields.of_outsideTemplate ((hp _ ?_).mono fun a t ht => ?_)
  · exact ⟨h.1, h.2, h.3, by simp⟩
  · exact ⟨ht.1, ht.2, ht.3, h.4⟩

/-! ## Reports and tokens -/

theorem addReports_keeps (rs : List Report) : Keeps told (addReports rs) := by
  refine Keeps.modify fun s h => ?_
  split
  · exact h
  · refine ⟨fun hr => ?_, h.2, h.3, h.4⟩
    rw [hasError_append, h.1 hr, Bool.true_or]

theorem addReports_tells {rs : List Report} (he : hasError rs = true) : Tells (addReports rs) := by
  intro told s h
  refine Yields.of_modify ?_
  split
  · rename_i hr
    exact ⟨fun _ => h.recorded (.inl hr), h.2, h.3, h.4⟩
  · refine ⟨fun _ => ?_, h.2, h.3, h.4⟩
    rw [hasError_append, hasError_map_orAt, he, Bool.or_true]

theorem report_keeps (r : Report) : Keeps told (report r) := addReports_keeps [r]

theorem error_tells (message : String) : Tells (error message) := addReports_tells rfl

theorem next_keeps (skipBreaks : Bool) (mode : ReadMode) : Keeps told (next skipBreaks mode) := by
  intro s h
  refine Yields.get_bind (Yields.set_bind (Yields.bind (addReports_keeps _ _ ?_) fun _ t ht =>
    Yields.of_pure ht))
  exact ⟨h.1, h.2, h.3, h.4⟩

theorem discard_keeps : Keeps told discard := Keeps.modify fun _ h => ⟨h.1, h.2, h.3, h.4⟩

theorem rewind_keeps (again : Bool) : Keeps told (rewind again) :=
  Keeps.modify fun _ h => ⟨h.1, h.2, h.3, h.4⟩

theorem exhaust_keeps : Keeps told exhaust := Keeps.modify fun _ h => ⟨h.1, h.2, h.3, h.4⟩

theorem noteAccess_keeps (n : Node) : Keeps told (noteAccess n) :=
  Keeps.modify fun _ h => ⟨h.1, h.2, h.3, h.4⟩

theorem noteLost_keeps (marks : List Nat) : Keeps told (noteLost marks) :=
  Keeps.modify fun _ h => ⟨h.1, h.2, h.3, h.4⟩

theorem substitute_keeps : Keeps true substitute :=
  fun _ h => ⟨fun _ => h.recorded (.inr (.inr rfl)), h.2, h.3, h.4⟩

/-! ## Expansion -/

theorem resolveParam?_keeps (n : Node) : Keeps told (resolveParam? n) := by
  refine Keeps.get_bind fun s hs => ?_
  split
  · exact Keeps.pure none
  · rename_i n' t rs he
    obtain ⟨t₀, ht₀, hr⟩ := Option.bind_eq_some_iff.mp he
    have ht : t.Trusted := (hs.template t₀ ht₀).resolveParam? hr
    refine Keeps.bind (Keeps.modify fun s h => ⟨h.1, h.2, h.3, ?_⟩) fun _ =>
      Keeps.bind (addReports_keeps rs) fun _ => Keeps.pure _
    intro t' ht'
    simp only [Option.some.injEq] at ht'
    exact ht' ▸ ht

/-- What a macro refused is replaced only if it was refused with an error. -/
theorem expanded_keeps (name : String) (position : Nat) {e : Expansion} (he : e.Speaks) :
    Keeps told (addReports (e.reports.map (Report.orAt (some position))) >>= fun _ =>
      expanded name position e.result) := by
  unfold expanded
  cases hr : e.result with
  | produced n => exact Keeps.bind (addReports_keeps _) fun _ => Keeps.pure _
  | refused =>
    refine Tells.bind (addReports_tells ?_) fun _ => substitute_keeps
    rw [hasError_map_orAt]
    exact he hr
  | fault f =>
    exact Keeps.bind (addReports_keeps _) fun _ => Tells.bind (addReports_tells rfl) fun _ =>
      substitute_keeps
  | crashed message =>
    exact Keeps.bind (addReports_keeps _) fun _ => Tells.bind (addReports_tells rfl) fun _ =>
      substitute_keeps

theorem callMacro_keeps (n : Node) (kind : MacroKind) (position : Nat) :
    Keeps told (callMacro n kind position) := by
  refine Keeps.get_bind fun s hs => ?_
  simp only
  cases hg : (s.visible.macros.group ⟨Template.wordOf n, kind⟩).isEmpty with
  | true => exact Keeps.pure n
  | false =>
    obtain ⟨hspeaks, hmem⟩ := searchGroup_spec kind hg n
    generalize searchGroup kind (s.visible.macros.group ⟨Template.wordOf n, kind⟩) n = found
      at hspeaks hmem ⊢
    obtain ⟨found, rs⟩ := found
    simp only [Bool.false_eq_true, if_false]
    cases found with
    | none =>
      refine Tells.bind (addReports_tells ?_) fun _ => substitute_keeps
      rw [hasError_map_orAt]
      exact hspeaks rfl
    | some m =>
      have hm : m.Trusted := hs.visible.group _ m (hmem m rfl)
      refine Keeps.bind (addReports_keeps _) fun _ => ?_
      cases ht : s.template with
      | none => exact expanded_keeps _ _ (hm.apply_speaks n s.config.copyConstants)
      | some t =>
        refine Keeps.bind (Keeps.modify fun s' h => ⟨h.1, h.2, h.3, fun t' ht' => ?_⟩) fun _ =>
          Keeps.pure _
        simp only [Option.some.injEq] at ht'
        exact ht' ▸ (hs.template t ht).deferCall hm n

theorem primitiveValue_keeps (token : Token) : Keeps told (primitiveValue token) := by
  unfold primitiveValue
  refine Keeps.ite (Keeps.pure _) (Keeps.bind (resolveParam?_keeps _) fun found => ?_)
  split
  · exact Keeps.pure _
  · exact callMacro_keeps _ _ _

theorem accessorCall_keeps (a b : Node) (o : Operator) (position : Nat) :
    Keeps told (accessorCall a b o position) := by
  unfold accessorCall
  refine Keeps.bind (noteAccess_keeps b) fun _ => ?_
  split
  · exact callMacro_keeps _ _ _
  · exact callMacro_keeps _ _ _
  · exact callMacro_keeps _ _ _

theorem namedValue_keeps (token : Token) (kind : MacroKind) (n : Node) :
    Keeps told (namedValue token kind n) := by
  unfold namedValue
  refine Keeps.ite (Keeps.pure _) (Keeps.bind (resolveParam?_keeps _) fun found => ?_)
  split
  · exact Keeps.pure _
  · exact Keeps.bind (callMacro_keeps _ _ _) fun _ => Keeps.pure _

end ConfigScript.Parser
