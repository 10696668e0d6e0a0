import ConfigScript.Proofs.Parser.GrowthValues
import ConfigScript.Proofs.Token.Lexical

/-! # What errors are reported

The errors that are reported on the way from one state to another, but for the lexical ones, which
any token may bring. Reading tokens and skipping report no others. -/

namespace ConfigScript.Parser

variable {s t u : ParserState} {P Q : Report → Prop}

/-- Where nothing waits with the tokenizer, nothing does afterwards, and the errors reported on the
way are lexical or have a property. -/
def Blames (P : Report → Prop) (s t : ParserState) : Prop :=
  s.tokenizer.reports = [] → t.tokenizer.reports = []
    ∧ ∃ rs, t.reports = s.reports ++ rs ∧ ∀ r ∈ rs, r.isError = true → r.isLexical = true ∨ P r

theorem Blames.mono (h : Blames P s t) (hpq : ∀ r, P r → Q r) : Blames Q s t := by
  intro hs
  obtain ⟨ht, rs, hrs, hall⟩ := h hs
  exact ⟨ht, rs, hrs, fun r hr he => (hall r hr he).imp_right (hpq r)⟩

theorem Blames.trans (h : Blames P s t) (g : Blames P t u) : Blames P s u := by
  intro hs
  obtain ⟨ht, rs, hrs, hall⟩ := h hs
  obtain ⟨hu, ss, hss, hall'⟩ := g ht
  exact ⟨hu, rs ++ ss, by rw [hss, hrs, List.append_assoc],
    List.forall_mem_append.mpr ⟨hall, hall'⟩⟩

theorem Blames.of_same (ht : t.tokenizer.reports = s.tokenizer.reports)
    (hr : t.reports = s.reports) : Blames P s t :=
  fun hs => ⟨ht.trans hs, [], by rw [hr, List.append_nil], by simp⟩

theorem Blames.refl (s : ParserState) : Blames P s s := .of_same rfl rfl

instance : IsPreorder ParserState (Blames P) where
  refl := Blames.refl
  trans _ _ _ := Blames.trans

theorem Extends.blames (h : Extends s t) (hr : t.reports = s.reports) : Blames P s t :=
  fun hs => ⟨h.waiting hs, [], by rw [hr, List.append_nil], by simp⟩

theorem addReports_blames (rs : List Report) :
    Yields (addReports rs) s fun _ t =>
      Blames (fun r => ∃ q ∈ rs, r = q.orAt (some s.tokenizer.lastStart)) s t := by
  refine Yields.of_modify fun hs => ?_
  split
  · exact (Blames.refl s) hs
  · refine ⟨hs, _, rfl, fun r hr _ => .inr ?_⟩
    obtain ⟨q, hq, rfl⟩ := List.mem_map.mp hr
    exact ⟨q, hq, rfl⟩

theorem next_blames (skipBreaks : Bool) (mode : ReadMode) :
    Moves (Blames P) (next skipBreaks mode) := by
  intro s hs
  have hlexical := Tokenizer.next_lexical (t := s.tokenizer) (by simp [hs, ReportsLexical])
    skipBreaks mode s.visible.operators
  obtain ⟨ht, rs, hrs, hall⟩ := addReports_blames
    (s.tokenizer.next skipBreaks mode s.visible.operators).2.reports (s := { s with
      tokenizer := (s.tokenizer.next skipBreaks mode s.visible.operators).2.takeReports.2 }) rfl
  refine ⟨ht, rs, hrs, fun r hr he => .inl ?_⟩
  obtain h | ⟨q, hq, rfl⟩ := hall r hr he
  · exact h
  · exact hlexical q hq

theorem discard_blames : Moves (Blames P) discard := fun s => (discard_extends s).blames rfl

theorem rewind_blames (again : Bool) : Moves (Blames P) (rewind again) :=
  fun s => (rewind_extends again s).blames rfl

theorem addReports_not_error {rs : List Report} (h : ∀ r ∈ rs, r.isError = false) :
    Moves (Blames P) (addReports rs) := by
  intro s hs
  obtain ⟨ht, ss, hss, hall⟩ := addReports_blames rs (s := s) hs
  refine ⟨ht, ss, hss, fun r hr he => ?_⟩
  obtain hl | ⟨q, hq, rfl⟩ := hall r hr he
  · exact .inl hl
  · exact absurd (h q hq) (ne_of_eq_of_ne (show q.isError = true from he) (by decide))

theorem error_blames (message : String) :
    Yields (error message) s fun _ t =>
      Blames (· = Report.errorAt message (some s.tokenizer.lastStart)) s t := by
  refine (addReports_blames [Report.error message]).mono fun _ t ht => ht.mono fun r hr => ?_
  obtain ⟨q, hq, rfl⟩ := hr
  rw [List.mem_singleton.mp hq]
  rfl

theorem skipStatement_blames (mode : ReadMode) (stop : StopAt) :
    Moves (Blames P) (skipStatement mode stop) :=
  fun s => (skipStatement_extends mode stop s).blames (skipStatement_reports mode stop s)

end ConfigScript.Parser
