import ConfigScript.Proofs.Import.Moments
import ConfigScript.Proofs.Library.Placed
import ConfigScript.Proofs.Parser.Standing

/-! # Where the reports of a session's scripts stand

The macros that a script imports bring positions of other sources with them, in their templates and
default values. In a session whose only native macros are those of the library, a report stands in
the source of its script, or where such a macro does. -/

namespace ConfigScript

open ConfigScript.Parser

/-! ## Native macros of the library alone -/

namespace Definition

/-- All native macros, those that others call included, are of the library. -/
def OfLibrary (d : Definition) : Prop := d.macros.Placed (fun _ => True) Library.Code

/-- The positions in the macros of a definition. -/
def places (d : Definition) : List Nat := d.macros.macros.flatMap Macro.places

theorem OfLibrary.placed {A : Nat → Prop} {d : Definition} (h : d.OfLibrary)
    (hA : ∀ p ∈ d.places, A p) : d.macros.Placed A Library.Code :=
  fun m hm => (h m hm).of_places fun p hp => hA p (List.mem_flatMap.mpr ⟨m, hm, hp⟩)

theorem ofLibrary_empty : OfLibrary {} := by simp [OfLibrary, MacroRegistry.Placed]

end Definition

def Resolution.OfLibrary (r : Resolution) : Prop := ∀ d, r.definition? = some d → d.OfLibrary

/-- What a path is answered with is so, and the reports for whoever asked have no position yet. -/
def PathAnswer.OfLibrary : PathAnswer → Prop
  | resolved r rs => r.OfLibrary ∧ ∀ q ∈ rs, q.position = none
  | crashed => True

def Environment.OfLibrary (e : Environment) : Prop :=
  ∀ p ∈ e.units, ∀ path u, p.supply? path = some (.item u) → u.definition.OfLibrary

def Session.OfLibrary (s : Session) : Prop := ∀ path r, s.cached? path = some r → r.OfLibrary

variable {e : Environment} {s : Session} {path : String} {r : Resolution}

theorem Resolution.ofLibrary_failure : failure.OfLibrary := by
  intro d hd
  simp [definition?] at hd

theorem Resolution.OfLibrary.usable? (h : r.OfLibrary) {d : Definition}
    (hd : r.usable? = some d) : d.OfLibrary := by
  unfold Resolution.usable? at hd
  split at hd
  · exact h d hd
  · simp at hd

theorem Environment.OfLibrary.found (he : e.OfLibrary) {u : ImportedUnit}
    (h : search path (Library.provider :: e.units) = .found u) : u.definition.OfLibrary := by
  obtain ⟨p, hp, hi⟩ := search_found h
  rcases List.mem_cons.mp hp with rfl | hp
  · obtain ⟨d, hd, hu⟩ := Library.provider_supply hi
    simp only [Supply.item.injEq] at hu
    exact hu ▸ Library.definitions_placed hd
  · exact he p hp path u hi

namespace Session

theorem ofLibrary_empty : OfLibrary {} := by
  intro path r hr
  simp [cached?] at hr

theorem OfLibrary.enter (h : s.OfLibrary) (path : String) : (s.enter path).OfLibrary := h

theorem OfLibrary.keep (h : s.OfLibrary) (hr : r.OfLibrary) : (s.keep path r).OfLibrary := by
  intro other r' hc
  rw [cached?_keep] at hc
  split at hc
  · simp only [Option.some.injEq] at hc
    exact hc ▸ hr
  · exact h other r' hc

/-- An answer and the session after it. -/
def AnswersOfLibrary (result : PathAnswer × Session) : Prop :=
  result.1.OfLibrary ∧ result.2.OfLibrary

theorem answerWith_ofLibrary {resolve : String → Session → PathAnswer × Session} {again : Bool}
    (hs : s.OfLibrary) (h : AnswersOfLibrary (resolve path s)) :
    AnswersOfLibrary (answerWith resolve again path s) := by
  have ha := answerWith_answered resolve again path s
  generalize answerWith resolve again path s = result at ha
  cases ha with
  | cached _ hc => exact ⟨⟨hs path _ hc, by simp⟩, hs⟩
  | kept _ hr =>
    rw [hr] at h
    exact ⟨h.1, h.2.keep h.1.1⟩
  | crashed _ hr =>
    rw [hr] at h
    exact h

theorem imports_placed {depth : Nat} {A : Nat → Prop}
    (h : AnswersOfLibrary (answerWith (resolve e depth) false path s))
    (hA : ∀ d, (imports e depth path s).1.definition? = some d → ∀ p ∈ d.places, A p)
    {found : Option Definition} {rs : List Report}
    (ha : (imports e depth path s).1 = .answered found rs) :
    AnswerPlaced A Library.Code found rs := by
  rw [ha] at hA
  simp only [imports] at ha
  obtain ⟨answer, hanswer⟩ : ∃ a, (answerWith (resolve e depth) false path s).1 = a := ⟨_, rfl⟩
  have hlibrary := h.1
  rw [hanswer] at ha hlibrary
  cases answer with
  | crashed => simp [PathAnswer.forImport] at ha
  | resolved r reports =>
    simp only [PathAnswer.forImport, ImportAnswer.answered.injEq] at ha
    obtain ⟨hfound, rfl⟩ := ha
    refine ⟨fun d hd => ?_, reportsPlaced_of_none hlibrary.2⟩
    have hd : found = some d := hd
    exact (hlibrary.1.usable? (hfound.trans hd)).placed (hA d hd)

theorem compile_ofLibrary {depth : Nat}
    (h : ∀ path s, s.OfLibrary → AnswersOfLibrary (answerWith (resolve e depth) false path s))
    {visible : Definition} (hv : visible.OfLibrary) (source : Source) (hs : s.OfLibrary) :
    (compile e.config (imports e depth) visible source s).1.definition.OfLibrary
      ∧ (compile e.config (imports e depth) visible source s).2.OfLibrary := by
  have hkeep (path : String) (i : Session) (hi : i.OfLibrary) :
      (imports e depth path i).2.OfLibrary := (h path i hi).2
  refine ⟨?_, compile_keep hkeep e.config visible source hs⟩
  refine (compile_stand (fun _ => Library.Code.keeps) (fun _ _ => trivial) hv ?_).2
  intro path j hm found rs ha
  have hj := requests_keep hkeep _ _ hs _ hm
  exact imports_placed (h path j hj) (fun _ _ _ _ => trivial) ha

/-- However deep imports are nested, they bring in no native macros but the library's. -/
theorem resolve_ofLibrary (he : e.OfLibrary) (depth : Nat) (path : String) {s : Session}
    (hs : s.OfLibrary) : AnswersOfLibrary (resolve e depth path s) := by
  induction depth using Nat.strongRecOn generalizing path s with
  | ind depth ih =>
    have hr := resolve_resolved e depth path s
    generalize resolve e depth path s = result at hr
    have hreport (reason : String) :
        ∀ q ∈ [unresolvable path reason], q.position = none := by
      simp [unresolvable, Report.error, Report.errorAt]
    cases hr with
    | cycle h =>
      refine ⟨⟨Resolution.ofLibrary_failure, fun q hq => ?_⟩, hs⟩
      rw [List.mem_singleton.mp hq]
      unfold cycleReport
      split <;> exact hreport _ _ (List.mem_singleton_self _)
    | crashed _ _ => exact ⟨trivial, hs⟩
    | provided _ _ hu =>
      refine ⟨⟨fun d hd => ?_, by simp⟩, hs⟩
      simp only [Resolution.definition?, Option.some.injEq] at hd
      exact hd ▸ he.found hu
    | missing _ _ _ => exact ⟨⟨Resolution.ofLibrary_failure, hreport _⟩, hs⟩
    | tooDeep _ _ => exact ⟨trivial, hs⟩
    | @script depth source c t _ _ hc =>
      have hrun := compile_ofLibrary (fun path s hs => answerWith_ofLibrary hs
        (ih depth (Nat.lt_succ_self depth) path hs)) Definition.ofLibrary_empty source
        (hs.enter path)
      rw [hc] at hrun
      refine ⟨⟨fun d hd => ?_, fun q hq => ?_⟩, hrun.2⟩
      · simp only [Resolution.definition?, Option.some.injEq] at hd
        exact hd ▸ hrun.1
      · unfold scriptReports at hq
        split at hq
        · simp at hq
        · exact hreport _ q hq

end Session

open Session

/-! ## Reports -/

/-- The positions in the macros that a script sees from the start or is answered with. -/
def Carried (e : Environment) (depth : Nat) (visible : Definition) (source : Source) (s : Session)
    (p : Nat) : Prop :=
  p ∈ visible.places
    ∨ ∃ path t d, (path, t) ∈ requests (imports e depth) (source.length + 2)
        (start e.config visible source) s
      ∧ (imports e depth path t).1.definition? = some d ∧ p ∈ d.places

/-- In a session whose only native macros are those of the library, each report of a script, at
whatever depth of imports it is compiled, has a position: in the script's own source, or one that
a macro brought along which the script saw from the start or was answered with. All sessions in
which the script asks for imports, and the session after it, are such sessions again. -/
theorem report_positions (he : e.OfLibrary) (hs : s.OfLibrary) {visible : Definition}
    (hv : visible.OfLibrary) (depth : Nat) (source : Source) :
    let result := compile e.config (imports e depth) visible source s
    (∀ r ∈ result.1.reports, ∃ p, r.position = some p
        ∧ (p ≤ source.length ∨ Carried e depth visible source s p))
      ∧ (∀ q ∈ requests (imports e depth) (source.length + 2) (start e.config visible source) s,
        q.2.OfLibrary)
      ∧ result.1.definition.OfLibrary ∧ result.2.OfLibrary := by
  have hanswer (path : String) (t : Session) (ht : t.OfLibrary) :
      AnswersOfLibrary (answerWith (resolve e depth) false path t) :=
    answerWith_ofLibrary ht (resolve_ofLibrary he depth path ht)
  have hkeep (path : String) (t : Session) (ht : t.OfLibrary) :
      (imports e depth path t).2.OfLibrary := (hanswer path t ht).2
  have hrequests := requests_keep hkeep (source.length + 2) (start e.config visible source) hs
  have hstand : ReportsStand (fun p => p ≤ source.length ∨ Carried e depth visible source s p)
        (compile e.config (imports e depth) visible source s).1.reports ∧ _ :=
    compile_stand (fun _ => Library.Code.keeps) (fun _ hp => .inl hp)
      (hv.placed fun p hp => .inr (.inl hp)) fun path t hm found rs ha =>
        imports_placed (hanswer path t (hrequests _ hm))
          (fun d hd p hp => .inr (.inr ⟨path, t, d, hm, hd, hp⟩)) ha
  exact ⟨hstand.1, hrequests, compile_ofLibrary hanswer hv source hs⟩

/-- The value of an imported macro is evaluated, which fails. -/
theorem report_positions_imported :
    let e : Environment :=
      { scripts := [.ofTexts [("m", "// the one key of the settings\nmacro k : \x7b\x7d")]] }
    let source := Source.ofText "use eval,use m,(eval(k))"
    let result := compile e.config (imports e e.depth) {} source {}
    e.OfLibrary ∧ OfLibrary {} ∧ Definition.OfLibrary {}
      ∧ result.1.reports.map Report.position = [some 41]
      ∧ ∀ r ∈ result.1.reports, ∃ p, r.position = some p
        ∧ (p ≤ source.length ∨ Carried e e.depth {} source {} p) := by
  intro e source result
  have he : e.OfLibrary := by simp [Environment.OfLibrary, e]
  exact ⟨he, ofLibrary_empty, Definition.ofLibrary_empty, by decide +kernel,
    (report_positions he ofLibrary_empty Definition.ofLibrary_empty e.depth source).1⟩

/-- That report stands beyond the end of the script that it is about. -/
theorem report_beyond_source :
    let e : Environment :=
      { scripts := [.ofTexts [("m", "// the one key of the settings\nmacro k : \x7b\x7d")]] }
    let source := Source.ofText "use eval,use m,(eval(k))"
    ¬∀ r ∈ (e.read {} source {}).1.reports, ∃ p, r.position = some p ∧ p ≤ source.length := by
  intro e source h
  have hpositions : (e.read {} source {}).1.reports.map Report.position = [some 41] := by
    decide +kernel
  obtain ⟨r, hr, hposition⟩ : ∃ r ∈ (e.read {} source {}).1.reports, r.position = some 41 :=
    List.mem_map.mp (hpositions ▸ List.mem_singleton_self _)
  obtain ⟨p, hp, hle⟩ := h r hr
  rw [hposition, Option.some.injEq] at hp
  have hlength : source.length = 24 := by decide +kernel
  omega

end ConfigScript
