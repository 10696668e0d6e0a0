import ConfigScript.Proofs.Import.History

/-! # Paths that are left in progress

Between operations no path is in progress, unless a provider broke down at it. Such a path is never
left, and whoever asks for it later is told of a cycle. -/

namespace ConfigScript

open ConfigScript.Parser Session

/-- A path is asked for while an operation runs, to be resolved again or not: by the session's user,
or by the script of the last path of the chain. -/
inductive AskedIn (e : Environment) (use : Use) (before : Session) :
    Bool → Nat → List String → String → Session → Prop
  | get {path : String} (hu : use = .get path) :
    AskedIn e use before false e.depth [] path before
  | reread {path : String} (hu : use = .reread path) :
    AskedIn e use before true e.depth [] path before
  | script {depth : Nat} {chain : List String} {source : Source} {t : ParserState} {s : Session}
    {path : String} (h : Underway e use before depth chain source t s)
    (hr : request? t = some path) : AskedIn e use before false depth chain path s

theorem AskedIn.holds {e : Environment} {use : Use} {before s : Session} {again : Bool}
    {depth : Nat} {chain : List String} {path : String}
    (h : AskedIn e use before again depth chain path s) :
    Underway.Holds e before depth chain s := by
  cases h with
  | get _ => exact .start e before
  | reread _ => exact .start e before
  | script h _ => exact h.holds

theorem Session.reports_of_fresh {e : Environment} {s t : Session} {again : Bool} {depth : Nat}
    {path : String} {r : Resolution} {rs : List Report}
    (ha : answerWith (resolve e depth) again path s = (.resolved r rs, t))
    (hp : path ∉ s.resolving) :
    rs = [] ∨ rs = [unresolvable path "Error in script"]
      ∨ rs = [unresolvable path "No script corresponding to path"] := by
  have h := answerWith_answered (resolve e depth) again path s
  rw [ha] at h
  cases h with
  | cached _ _ => exact .inl rfl
  | kept _ hr =>
    have hres := resolve_resolved e depth path s
    rw [hr] at hres
    rcases hres.reports with ⟨hm, -⟩ | ⟨-, hrs⟩
    · exact absurd hm hp
    · exact hrs

/-- Between operations the paths in progress are, without duplicates, paths at which a provider
broke down; there are none if no provider did, whatever else failed. None of them is ever left. As
long as no provider breaks down at a path, the path is in progress just when it is on the chain of
imports, and is not reported as a cycle unless it is. -/
theorem left_in_progress {h : List (Environment × Use)} (hb : ∀ x ∈ h, x.1.Bounded) :
    (along h).resolving.Nodup
      ∧ (∀ path ∈ (along h).resolving, ∃ x ∈ h, x.1.Crashes path)
      ∧ ((∀ x ∈ h, ∀ path, ¬x.1.Crashes path) → (along h).resolving = [])
      ∧ (∀ more, (along h).resolving <+: (along (h ++ more)).resolving)
      ∧ ∀ e use again depth chain path s, e.Bounded →
        AskedIn e use (along h) again depth chain path s →
        (∀ x ∈ h ++ [(e, use)], ¬x.1.Crashes path) →
        (path ∈ s.resolving ↔ path ∈ chain)
          ∧ ∀ r rs t, answerWith (resolve e depth) again path s = (.resolved r rs, t) →
            path ∉ chain → rs = [] ∨ rs = [unresolvable path "Error in script"]
              ∨ rs = [unresolvable path "No script corresponding to path"] := by
  obtain ⟨lost, hlost⟩ := fold_strands h {}
  have hresolving : (along h).resolving = lost := hlost.resolving
  have hcrash : ∀ path ∈ (along h).resolving, ∃ x ∈ h, x.1.Crashes path := by
    intro path hp
    obtain ⟨x, hx, hl⟩ := hlost.kind path (hresolving ▸ hp)
    exact ⟨x, hx, hl.resolve_right fun hn => hn (hb x hx)⟩
  refine ⟨hresolving ▸ hlost.nodup, hcrash, fun hnone => ?_, fun more => ?_, ?_⟩
  · refine List.eq_nil_iff_forall_not_mem.mpr fun path hp => ?_
    obtain ⟨x, hx, hc⟩ := hcrash path hp
    exact hnone x hx path hc
  · obtain ⟨later, hlater⟩ := fold_strands more (along h)
    have hmore := hlater.resolving
    rw [along, along, List.foldl_append] at *
    exact hmore ▸ List.prefix_append _ _
  · intro e use again depth chain path s he hask hnone
    have hholds := hask.holds
    have hiff : path ∈ s.resolving ↔ path ∈ chain := by
      refine ⟨fun hp => ?_, hholds.nested.inside path⟩
      rcases hholds.known path hp with hc | hbefore | hl
      · exact hc
      · obtain ⟨x, hx, hc⟩ := hcrash path hbefore
        exact absurd hc (hnone x (List.mem_append_left _ hx))
      · have hc := hl.resolve_right fun hn => hn he
        exact absurd hc (hnone (e, use) (by simp))
    refine ⟨hiff, fun r rs t ha hnew => ?_⟩
    exact reports_of_fresh ha fun hp => hnew (hiff.mp hp)

/-- A provider breaks down at one path and fails for another, both imported by a script. Later there
are scripts for both, and the second one is imported. -/
theorem left_in_progress_later :
    let broken : Environment :=
      { scripts := [.crashing ["p"], .failing ["q"], .ofTexts [("r", "use q\nuse p")]] }
    let mended : Environment := { scripts := [.ofTexts [("p", "a"), ("q", "b")]] }
    let h : List (Environment × Use) := [(broken, .get "q"), (broken, .get "r"), (mended, .clear)]
    (∀ x ∈ h, x.1.Bounded) ∧ mended.Bounded ∧ (along h).resolving = ["p"]
      ∧ AskedIn mended (.get "q") (along h) false mended.depth [] "q" (along h)
      ∧ (∀ x ∈ h ++ [(mended, .get "q")], ¬x.1.Crashes "q")
      ∧ "q" ∉ (along h).resolving := by
  intro broken mended h
  have hbroken : broken.Bounded := Environment.bounded_of_finite (by
    simp only [broken, Provider.crashing, Provider.failing, Provider.ofTexts, Provider.ofItems,
      List.forall_mem_cons, Provider.finite_ofEntries, List.not_mem_nil, false_imp_iff,
      implies_true, and_self])
  have hmended : mended.Bounded := Environment.bounded_of_finite (by
    simp only [mended, Provider.ofTexts, Provider.ofItems, List.forall_mem_cons,
      Provider.finite_ofEntries, List.not_mem_nil, false_imp_iff, implies_true, and_self])
  have hb : ∀ x ∈ h, x.1.Bounded := by simp [h, hbroken, hmended]
  have hquiet (e : Environment) (hu : search "q" (Library.provider :: e.units) = .missing false)
      (hs : search "q" e.scripts ≠ .crashed) : ¬e.Crashes "q" := by
    rintro (hc | hc)
    · rw [hu] at hc
      cases hc
    · exact hs hc
  have hnone : ∀ x ∈ h ++ [(mended, Use.get "q")], ¬x.1.Crashes "q" := by
    have hone : ¬broken.Crashes "q" := hquiet broken rfl fun hc => by cases hc
    have htwo : ¬mended.Crashes "q" := hquiet mended rfl fun hc => by cases hc
    simp [h, hone, htwo]
  have hask : AskedIn mended (.get "q") (along h) false mended.depth [] "q" (along h) := .get rfl
  obtain ⟨-, -, -, -, hlater⟩ := left_in_progress hb
  have hiff := (hlater mended _ _ _ _ _ _ hmended hask hnone).1
  refine ⟨hb, hmended, by decide +kernel, hask, hnone, fun hm => ?_⟩
  exact absurd (hiff.mp hm) List.not_mem_nil

/-- A path at which a provider broke down is in progress while no operation runs, and the next
script that imports it is told of a cycle. -/
theorem crash_left_in_progress :
    let e : Environment := { scripts := [.crashing ["p"]] }
    let source := Source.ofText "use p"
    let h : List (Environment × Use) := [(e, .read {} source)]
    ¬(along h).resolving = []
      ∧ (e.read {} source (along h)).1.reports.map Report.message
        = ["Cannot resolve definitions from path 'p': Self-reference"] := by
  intro e source h
  exact ⟨by decide +kernel, by decide +kernel⟩

end ConfigScript
