import ConfigScript.Proofs.Import.Resolved
import ConfigScript.Proofs.Parser.Agreement

/-! # Imports that fail

A path that cannot be imported is an error for the script that asks for it, at the first time. The
result is kept in the session, and whoever asks for the path again is told nothing. -/

namespace ConfigScript

open ConfigScript.Parser

theorem hasError_cycleReport (path : String) (cycle : List String) :
    hasError [cycleReport path cycle] = true := by
  unfold cycleReport
  split
  · rfl
  · rfl

theorem Session.Resolved.hasError {e : Environment} {path : String} {s t : Session} {depth : Nat}
    {r : Resolution} {rs : List Report}
    (h : Session.Resolved e path s depth (.resolved r rs, t)) (hr : r.usable? = none) :
    ConfigScript.hasError rs = true := by
  generalize hresult : (PathAnswer.resolved r rs, t) = result at h
  cases h with
  | cycle _ =>
    simp only [Prod.mk.injEq, PathAnswer.resolved.injEq] at hresult
    rw [hresult.1.2]
    exact hasError_cycleReport _ _
  | crashed _ _ => simp at hresult
  | provided _ _ _ =>
    simp only [Prod.mk.injEq, PathAnswer.resolved.injEq] at hresult
    rw [hresult.1.1] at hr
    simp [Resolution.usable?, Resolution.isSuccess, Resolution.definition?] at hr
  | missing _ _ _ =>
    simp only [Prod.mk.injEq, PathAnswer.resolved.injEq] at hresult
    rw [hresult.1.2]
    rfl
  | tooDeep _ _ => simp at hresult
  | @script depth source c t _ _ _ =>
    simp only [Prod.mk.injEq, PathAnswer.resolved.injEq] at hresult
    obtain ⟨⟨rfl, rfl⟩, -⟩ := hresult
    have hc : c.isSuccess = false := by
      rw [← Bool.not_eq_true]
      intro hc
      simp [Resolution.usable?, Resolution.isSuccess, Resolution.definition?, hc] at hr
    rw [scriptReports, hc]
    rfl

/-- A script that asks for a path and gets nothing to import is not successful, if no result for
the path was at hand. If one was, it failed before, and the request adds no report. -/
theorem failed_import_told (e : Environment) (depth : Nat) (visible : Definition) (source : Source)
    (s j : Session) (path : String)
    (hreq : (path, j) ∈ requests (Session.imports e depth) (source.length + 2)
      (start e.config visible source) s)
    (hnone : (Session.imports e depth path j).1.definition? = none) :
    (j.cached? path = none →
      (compile e.config (Session.imports e depth) visible source s).1.isSuccess = false)
      ∧ ∀ r, j.cached? path = some r →
        r.usable? = none ∧ Session.imports e depth path j = (.answered none [], j) := by
  constructor
  · intro hcached
    have he : ∀ found rs, (Session.imports e depth path j).1 = .answered found rs →
        hasError rs = true := by
      intro found rs ha
      have hres := Session.resolve_resolved e depth path j
      rw [ha] at hnone
      rcases Session.answerWith_cases (Session.resolve e depth) path j with
        ⟨r, hr, -⟩ | ⟨-, ⟨r, ss, t, hr, hans⟩ | ⟨t, -, hans⟩⟩
      · rw [hcached] at hr
        simp at hr
      · simp only [Session.imports, hans, PathAnswer.forImport, ImportAnswer.answered.injEq] at ha
        rw [hr] at hres
        exact ha.2 ▸ hres.hasError (ha.1.trans hnone)
      · simp [Session.imports, hans, PathAnswer.forImport] at ha
    obtain ⟨ended, t, k, hread⟩ : ∃ ended t k, statements (Session.imports e depth)
        (source.length + 2) (start e.config visible source) s = (ended, t, k) := ⟨_, _, _, rfl⟩
    have hend := statements_hasError rfl hreq he
    rw [hread] at hend
    rw [compile_eq hread, Compiled.isSuccess]
    split
    · rename_i hdone
      simp only [Bool.and_eq_true] at hdone
      simpa [hdone.1] using hend
    · simp [breakDown_hasError]
  · intro r hr
    rcases Session.answerWith_cases (Session.resolve e depth) path j with
      ⟨r', hr', hans⟩ | ⟨hn, -⟩
    · rw [hr, Option.some.injEq] at hr'
      subst hr'
      simp only [Session.imports, hans, PathAnswer.forImport, ImportAnswer.definition?] at hnone ⊢
      exact ⟨hnone, by rw [hnone]⟩
    · rw [hr] at hn
      simp at hn

/-- The first script of a session that asks for a path that nothing stands for. -/
theorem failed_import_told_first :
    let e : Environment := {}
    let source := Source.ofText "use missing"
    ("missing", ({} : Session)) ∈ requests (Session.imports e e.depth) (source.length + 2)
        (start e.config {} source) {}
      ∧ (Session.imports e e.depth "missing" {}).1.definition? = none
      ∧ (e.read {} source {}).1.isSuccess = false := by
  intro e source
  have hreq : ("missing", ({} : Session)) ∈ requests (Session.imports e e.depth)
      (source.length + 2) (start e.config {} source) {} :=
    mem_requests_first (by decide +kernel) _ _
  have hnone : (Session.imports e e.depth "missing" {}).1.definition? = none :=
    Option.isNone_iff_eq_none.mp (by decide +kernel)
  obtain ⟨htold, -⟩ := failed_import_told e e.depth {} source {} {} "missing" hreq hnone
  exact ⟨hreq, hnone, htold rfl⟩

/-- The second script that asks for it is told nothing, and counts as successful. -/
theorem failed_import_silent :
    let e : Environment := {}
    let source := Source.ofText "use missing"
    let s := (e.read {} source {}).2
    ¬∀ path j, (path, j) ∈ requests (Session.imports e e.depth) (source.length + 2)
        (start e.config {} source) s →
      (Session.imports e e.depth path j).1.definition? = none →
      (e.read {} source s).1.isSuccess = false := by
  intro e source s h
  have hreq : ("missing", s) ∈ requests (Session.imports e e.depth) (source.length + 2)
      (start e.config {} source) s :=
    mem_requests_first (by decide +kernel) _ _
  have hnone : (Session.imports e e.depth "missing" s).1.definition? = none :=
    Option.isNone_iff_eq_none.mp (by decide +kernel)
  have hsuccess : (e.read {} source s).1.isSuccess = true := by decide +kernel
  rw [h "missing" s hreq hnone] at hsuccess
  exact Bool.false_ne_true hsuccess

end ConfigScript
