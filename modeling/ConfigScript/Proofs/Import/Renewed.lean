import ConfigScript.Proofs.Import.History

/-! # Paths that are resolved again

A path in progress has no usable result, so it cannot be imported, unless it is being resolved
again: what was usable before stays at hand until it is replaced. -/

namespace ConfigScript

open ConfigScript.Parser

namespace Session

variable {e : Environment} {use : Use} {depth : Nat} {chain known : List String}
  {path : String} {s t : Session} {source : Source}

/-- The path that an operation resolves again, if there is a usable result for it. -/
def renewedBy (s : Session) : Use → Option String
  | .reread path => if ((s.cached? path).bind Resolution.usable?).isSome then some path else none
  | _ => none

/-- The paths that some operations resolve again while there are usable results for them. -/
def renewedAlong : List (Environment × Use) → Session → List String
  | [], _ => []
  | (e, use) :: h, s => (s.renewedBy use).toList ++ renewedAlong h (e.serve use s)

/-- A path has no result that can be imported. -/
def Unusable (s : Session) (path : String) : Prop :=
  ∀ r, s.cached? path = some r → r.usable? = none

/-- No path in progress has a usable result, but for some known paths. -/
structure Barred (known : List String) (s : Session) : Prop where
  nodup : s.resolving.Nodup
  barred : ∀ path ∈ s.resolving, path ∈ known ∨ s.Unusable path

theorem Unusable.of_none (h : s.cached? path = none) : s.Unusable path := by
  intro r hr
  rw [h] at hr
  cases hr

theorem barred_empty (known : List String) : Barred known {} := ⟨List.nodup_nil, by simp⟩

theorem Barred.mono {more : List String} (h : Barred known s) (hm : known ⊆ more) :
    Barred more s :=
  ⟨h.nodup, fun path hp => (h.barred path hp).imp_left fun hk => hm hk⟩

theorem Barred.clear (h : Barred known s) : Barred known s.clear :=
  ⟨h.nodup, fun _ _ => .inr (.of_none rfl)⟩

theorem Barred.enter (h : Barred known s) (hp : path ∉ s.resolving)
    (hu : path ∈ known ∨ s.Unusable path) : Barred known (s.enter path) := by
  refine ⟨?_, fun other ho => ?_⟩
  · rw [Session.enter, ← List.concat_eq_append]
    exact List.Nodup.concat hp h.nodup
  · rcases mem_enter.mp ho with ho | rfl
    · exact h.barred other ho
    · exact hu

theorem Barred.leave (h : Barred known s) (path : String) : Barred known (s.leave path) :=
  ⟨h.nodup.erase path, fun other ho => h.barred other (List.mem_of_mem_erase ho)⟩

theorem Barred.keep (h : Barred known s) {r : Resolution}
    (hr : path ∉ s.resolving ∨ r.usable? = none) : Barred known (s.keep path r) := by
  refine ⟨h.nodup, fun other ho => (h.barred other ho).imp_right fun hu r' hr' => ?_⟩
  rw [cached?_keep] at hr'
  split at hr'
  · rename_i he
    have hnone := hr.resolve_left fun hp => hp (he ▸ ho)
    exact Option.some.inj hr' ▸ hnone
  · exact hu r' hr'

/-- Resolving a path keeps it barred, and gives a result that may be kept. -/
theorem Resolved.barred {a : PathAnswer} (h : Resolved e path s depth (a, t))
    (hs : Barred known s) (hu : path ∈ known ∨ s.Unusable path)
    (hunit : ∀ d source, depth = d + 1 → Barred known (s.enter path) →
      Barred known (compile e.config (imports e d) {} source (s.enter path)).2) :
    Barred known t ∧ ∀ r rs, a = .resolved r rs → path ∉ t.resolving ∨ r.usable? = none := by
  have hleft {u : Session} (h : Barred known u) : path ∉ (u.leave path).resolving :=
    h.nodup.not_mem_erase
  cases h with
  | cycle _ =>
    refine ⟨hs, fun r rs ha => .inr ?_⟩
    obtain ⟨rfl, -⟩ := PathAnswer.resolved.inj ha
    rfl
  | crashed hp _ => exact ⟨hs.enter hp hu, nofun⟩
  | provided hp _ _ =>
    exact ⟨(hs.enter hp hu).leave path, fun _ _ _ => .inl (hleft (hs.enter hp hu))⟩
  | missing hp _ _ =>
    exact ⟨(hs.enter hp hu).leave path, fun _ _ _ => .inl (hleft (hs.enter hp hu))⟩
  | tooDeep hp _ => exact ⟨hs.enter hp hu, nofun⟩
  | @script d source c u hp _ hc =>
    have hread := hunit d source rfl (hs.enter hp hu)
    rw [hc] at hread
    exact ⟨hread.leave path, fun _ _ _ => .inl (hleft hread)⟩

theorem Answered.barred {resolve : String → Session → PathAnswer × Session} {again : Bool}
    {a : PathAnswer} (h : Answered resolve again path s (a, t)) (hs : Barred known s)
    (hresolve : (again = false → s.cached? path = none) → Barred known (resolve path s).2
      ∧ ∀ r rs, (resolve path s).1 = .resolved r rs →
        path ∉ (resolve path s).2.resolving ∨ r.usable? = none) :
    Barred known t := by
  cases h with
  | cached _ _ => exact hs
  | kept hc hr =>
    obtain ⟨ht, hkeep⟩ := hresolve hc
    rw [hr] at ht hkeep
    exact ht.keep (hkeep _ _ rfl)
  | crashed hc hr =>
    obtain ⟨ht, -⟩ := hresolve hc
    rw [hr] at ht
    exact ht

theorem resolve_barred (hs : Barred known s) (hu : path ∈ known ∨ s.Unusable path) :
    Barred known (resolve e depth path s).2
      ∧ ∀ r rs, (resolve e depth path s).1 = .resolved r rs →
        path ∉ (resolve e depth path s).2.resolving ∨ r.usable? = none := by
  induction depth generalizing path s with
  | zero => exact (resolve_resolved e 0 path s).barred hs hu nofun
  | succ depth ih =>
    refine (resolve_resolved e (depth + 1) path s).barred hs hu fun d source hd henter => ?_
    obtain rfl := Nat.succ.inj hd
    refine compile_keep (fun path s hs => ?_) e.config {} source henter
    exact (answerWith_answered _ false path s).barred hs fun hc => ih hs (.inr (.of_none (hc rfl)))

theorem imports_barred (hs : Barred known s) (path : String) :
    Barred known (imports e depth path s).2 :=
  (answerWith_answered (resolve e depth) false path s).barred hs fun hc =>
    resolve_barred hs (.inr (.of_none (hc rfl)))

/-! ## Over time -/

theorem renewedBy_reread (s : Session) (path : String) :
    path ∈ (s.renewedBy (.reread path)).toList ∨ s.Unusable path := by
  by_cases h : ((s.cached? path).bind Resolution.usable?).isSome
  · exact .inl (by simp [renewedBy, h])
  · refine .inr fun r hr => ?_
    rw [hr, Option.bind_some, Option.not_isSome_iff_eq_none] at h
    exact h

theorem serve_barred (hs : Barred known s) (hu : (s.renewedBy use).toList ⊆ known) :
    Barred known (e.serve use s) := by
  cases use with
  | get path => exact imports_barred hs path
  | reread path =>
    refine (answerWith_answered (resolve e e.depth) true path s).barred hs fun _ => ?_
    exact resolve_barred hs ((renewedBy_reread s path).imp_left fun hm => hu hm)
  | read visible source =>
    have himports (path : String) (i : Session) (hi : Barred known i) :
        Barred known (imports e e.depth path i).2 := imports_barred hi path
    exact compile_keep himports e.config visible source hs
  | clear => exact hs.clear

theorem fold_barred (h : List (Environment × Use)) (hs : Barred known s) :
    Barred (known ++ renewedAlong h s) (h.foldl (fun s (e, use) => e.serve use s) s) := by
  induction h generalizing known s with
  | nil => exact (List.append_nil known).symm ▸ hs
  | cons x h ih =>
    have hnext : Barred (known ++ (s.renewedBy x.2).toList) (x.1.serve x.2 s) :=
      serve_barred (hs.mono (List.subset_append_left _ _)) (List.subset_append_right _ _)
    have hlast := ih hnext
    rw [List.append_assoc] at hlast
    exact hlast

theorem renewedAlong_concat (h : List (Environment × Use)) (s : Session) (e : Environment)
    (use : Use) : renewedAlong (h ++ [(e, use)]) s = renewedAlong h s
      ++ ((h.foldl (fun s (e, use) => e.serve use s) s).renewedBy use).toList := by
  induction h generalizing s with
  | nil => simp [renewedAlong]
  | cons x h ih => simp [renewedAlong, ih]

end Session

open Session

theorem Underway.barred {e : Environment} {use : Use} {before s : Session} {depth : Nat}
    {chain known : List String} {source : Source} {t : ParserState}
    (h : Underway e use before depth chain source t s) (hb : Barred known before)
    (hu : (before.renewedBy use).toList ⊆ known) : Barred known s := by
  induction h with
  | read _ => exact hb
  | @asked depth path source hask hd hp hf =>
    refine hb.enter hp ?_
    rcases hask with ⟨-, hc⟩ | rfl
    · exact .inr (.of_none hc)
    · exact (renewedBy_reread before path).imp_left fun hm => hu hm
  | nested _ _ hc hp _ ih => exact ih.enter hp (.inr (.of_none hc))
  | turn _ ht ih =>
    rcases turn_session ht with rfl | ⟨path, -, rfl⟩
    · exact ih
    · exact imports_barred ih path

/-- A script that asks for a path in progress gets nothing to import, unless an operation began to
resolve the path again while there was a usable result for it. If so, the script gets the result at
hand. What the providers hold may change between operations, and they may fail and break down. -/
theorem in_progress_refused (h : List (Environment × Use)) (e : Environment) (use : Use)
    (depth : Nat) (chain : List String) (source : Source) (t : ParserState) (s : Session)
    (path : String) (hm : Underway e use (along h) depth chain source t s)
    (hp : path ∈ s.resolving) :
    (imports e depth path s).1.definition? = none
      ∨ path ∈ renewedAlong (h ++ [(e, use)]) {}
        ∧ ∃ r, s.cached? path = some r ∧ (imports e depth path s).1 = .answered r.usable? [] := by
  have hbefore : Barred (renewedAlong h {}) (along h) := fold_barred h (barred_empty [])
  have hbarred : Barred (renewedAlong (h ++ [(e, use)]) {}) s := by
    rw [renewedAlong_concat]
    exact hm.barred (hbefore.mono (List.subset_append_left _ _)) (List.subset_append_right _ _)
  have hanswer := answerWith_cases (resolve e depth) path s
  rcases hanswer with ⟨r, hc, hans⟩ | ⟨-, ⟨r, rs, u, hres, hans⟩ | ⟨u, -, hans⟩⟩
  · have himports : (imports e depth path s).1 = .answered r.usable? [] := by
      rw [imports, hans]
      rfl
    rcases hbarred.barred path hp with hk | hu
    · exact .inr ⟨hk, r, hc, himports⟩
    · refine .inl ?_
      rw [himports]
      exact hu r hc
  · -- without a result at hand the path is found to be in progress
    have hresolved := resolve_resolved e depth path s
    rw [hres] at hresolved
    refine .inl ?_
    rw [imports, hans]
    cases hresolved with
    | cycle _ => rfl
    | provided hnew _ _ => exact absurd hp hnew
    | missing hnew _ _ => exact absurd hp hnew
    | script hnew _ _ => exact absurd hp hnew
  · refine .inl ?_
    rw [imports, hans]
    rfl

/-- A script that imports itself, read for the first time: it gets nothing. -/
theorem in_progress_refused_self :
    let e : Environment := { scripts := [.ofTexts [("a", "use a")]] }
    let source := Source.ofText "use a"
    let s := ({} : Session).enter "a"
    Underway e (.get "a") (along []) 0 ["a"] source (start e.config {} source) s
      ∧ "a" ∈ s.resolving ∧ request? (start e.config {} source) = some "a"
      ∧ (imports e 0 "a" s).1.definition? = none := by
  intro e source s
  have hm : Underway e (.get "a") (along []) 0 ["a"] source (start e.config {} source) s :=
    .asked (.inl ⟨rfl, rfl⟩) rfl (by simp [along]) rfl
  have hp : "a" ∈ s.resolving := by simp [s, Session.enter]
  rcases in_progress_refused [] e (.get "a") 0 ["a"] source _ s "a" hm hp with hnone | ⟨hknown, -⟩
  · exact ⟨hm, hp, by decide +kernel, hnone⟩
  · simp [renewedAlong, renewedBy] at hknown

/-- A script that is read again after it was changed to import itself: it gets what it exported
before. -/
theorem renewed_in_progress :
    let earlier : Environment := { scripts := [.ofTexts [("a", "macro m : 1")]] }
    let e : Environment := { scripts := [.ofTexts [("a", "use a\n[m]")]] }
    let h : List (Environment × Use) := [(earlier, .get "a")]
    ¬∀ depth chain source t s path, Underway e (.reread "a") (along h) depth chain source t s →
      request? t = some path → path ∈ s.resolving →
      (imports e depth path s).1.definition? = none := by
  intro earlier e h hall
  have hm : Underway e (.reread "a") (along h) 0 ["a"] (Source.ofText "use a\n[m]")
      (start e.config {} (Source.ofText "use a\n[m]")) ((along h).enter "a") :=
    .asked (.inr rfl) rfl (by decide +kernel) rfl
  have hnone := hall _ _ _ _ _ "a" hm (by decide +kernel) (by simp [Session.enter])
  have hsome : (imports e 0 "a" ((along h).enter "a")).1.definition?.isSome = true := by
    decide +kernel
  rw [hnone] at hsome
  cases hsome

end ConfigScript
