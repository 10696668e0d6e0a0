import ConfigScript.Proofs.Parser.ToldStatements

/-! # No silent error value

If the error value stands anywhere for a construct, there is an error among the reports of the
script, so that a script without errors holds none. -/

namespace ConfigScript

/-- A resolver that answers, if it does, with definitions of trusted macros. -/
def Resolver.Trusted {σ : Type} (resolve : Resolver σ) : Prop :=
  ∀ path i found rs, (resolve path i).1 = .answered found rs → Parser.MacrosTrusted found

namespace Parser

variable {σ : Type} {resolve : Resolver σ} {told : Bool} {s : ParserState}

theorem turn_told (hr : resolve.Trusted) (h : Told told s) (i : σ) :
    Told told (turn resolve s i).2.1 := by
  have hs := statement_keeps s h
  unfold Yields at hs
  unfold turn
  generalize statement.run s = read at hs ⊢
  obtain ⟨r, t⟩ := read
  cases r with
  | endOfFile => exact hs
  | complete => exact hs
  | importing path start purpose =>
    have ha := hr path i
    cases hres : resolve path i with
    | mk answer j =>
      rw [hres] at ha
      simp only [hres]
      cases answer with
      | crashed => exact hs
      | answered found rs => exact takeAnswer_keeps start purpose (ha found rs rfl) rs t hs

theorem statements_told (hr : resolve.Trusted) (n : Nat) (h : Told told s) (i : σ) :
    Told told (statements resolve n s i).2.1 := by
  induction n generalizing s i with
  | zero => exact h
  | succ n ih =>
    have ht := turn_told hr h i
    unfold statements
    generalize turn resolve s i = r at ht ⊢
    obtain ⟨p, t, j⟩ := r
    cases p with
    | ended => exact ht
    | goesOn => exact ih ht j
    | brokenDown => exact ht

theorem start_told (config : Config) {visible : Definition} (hv : visible.macros.Trusted)
    (source : Source) : Told false (start config visible source) :=
  ⟨by simp [start], hv, by simp [start, MacroRegistry.Trusted], by simp [start]⟩

theorem compile_eq {config : Config} {visible : Definition} {source : Source} {imports i : σ}
    {ended : Bool} (h : statements resolve (source.length + 2) (start config visible source) imports
      = (ended, s, i)) :
    compile config resolve visible source imports =
      if ended && !s.exhausted then (⟨source, s.root, s.exported, s.reports⟩, i)
      else (⟨source, s.root, s.exported, (breakDown s).reports⟩, i) := by
  unfold compile
  simp only [h]
  split
  · rfl
  · rfl

theorem breakDown_hasError (s : ParserState) : hasError (breakDown s).reports = true := by
  have h : (breakDown s).reports = s.reports
      ++ [Report.orAt (some s.tokenizer.lastStart) (Report.error "Unexpected error")] := rfl
  rw [h, hasError_append, Bool.or_eq_true]
  exact .inr rfl

/-- The error value takes the place of a construct, also while the parser skips, only if an error
is reported: a script without errors holds no substitute, and none of its recursions was cut
short. In particular a trusted macro refuses an argument only with an error. -/
theorem substitution_reported (config : Config) (resolve : Resolver σ) (hr : resolve.Trusted)
    (visible : Definition) (hv : visible.macros.Trusted) (source : Source) (imports : σ) :
    ((statements resolve (source.length + 2) (start config visible source) imports).2.1.substituted
        = true →
      hasError (compile config resolve visible source imports).1.reports = true)
      ∧ ((compile config resolve visible source imports).1.isSuccess = true →
        (statements resolve (source.length + 2) (start config visible source) imports).1 = true
        ∧ (statements resolve (source.length + 2) (start config visible source)
            imports).2.1.substituted = false
        ∧ (statements resolve (source.length + 2) (start config visible source)
            imports).2.1.exhausted = false)
      ∧ ∀ m : Macro, m.Trusted → ∀ arg copy, (m.apply arg copy).result = .refused →
        hasError (m.apply arg copy).reports = true := by
  have ht := statements_told hr (source.length + 2) (start_told config hv source) imports
  obtain ⟨ended, s, i, hread⟩ : ∃ ended s i, statements resolve (source.length + 2)
      (start config visible source) imports = (ended, s, i) := ⟨_, _, _, rfl⟩
  rw [hread] at ht
  rw [compile_eq hread, hread]
  refine ⟨fun hs => ?_, fun hok => ?_, fun m hm arg copy => hm.apply_speaks arg copy⟩
  · split
    · exact ht.recorded (.inr (.inl hs))
    · exact breakDown_hasError s
  · split at hok
    · rename_i hend
      simp only [Bool.and_eq_true, Bool.not_eq_true'] at hend
      refine ⟨hend.1, ?_, hend.2⟩
      rw [← Bool.not_eq_true]
      intro hs
      simp [Compiled.isSuccess, ht.recorded (.inr (.inl hs))] at hok
    · simp [Compiled.isSuccess, breakDown_hasError] at hok

/-- A constant that refuses with a word about it, and an import that breaks down. -/
theorem substitution_reported_refusal :
    let resolve : Resolver Unit := fun _ i => (.crashed, i)
    let fails : Macro :=
      .native ⟨⟨"fails", .constant⟩, [], none⟩ fun _ _ => ⟨.refused, [Report.error "not today"]⟩
    resolve.Trusted ∧ MacroRegistry.Trusted ⟨[fails]⟩
      ∧ (fails.apply (.value "fails") false).result = .refused
      ∧ hasError (fails.apply (.value "fails") false).reports = true := by
  intro resolve fails
  have hfails : fails.Trusted := .native rfl fun _ _ _ => rfl
  have hv : MacroRegistry.Trusted ⟨[fails]⟩ := by
    intro m hm
    rw [List.mem_singleton.mp hm]
    exact hfails
  have hr : resolve.Trusted := by
    intro path i found rs h
    simp [resolve] at h
  have hrefused : (fails.apply (.value "fails") false).result = .refused := by
    simp [fails, Macro.apply, MacroHead.arguments, MacroHead.bind, Expansion.after]
  obtain ⟨-, -, happly⟩ := substitution_reported {} resolve hr { macros := ⟨[fails]⟩ } hv
    (Source.ofText "[fails, 1]") ()
  exact ⟨hr, hv, hrefused, happly fails hfails _ false hrefused⟩

end Parser

end ConfigScript
