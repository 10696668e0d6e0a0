import ConfigScript.Proofs.Parser.Requests
import ConfigScript.Proofs.Parser.Substitution

/-! # Runs and their answers

What becomes of a run is settled by the answers it gets. An answer with an error leaves the script
with an error, and two resolvers that answer alike lead to runs that end alike. -/

namespace ConfigScript

variable {σ τ : Type} {resolve : Resolver σ}

theorem hasError_of_isPrefix {rs ss : List Report} (h : rs <+: ss) (he : hasError rs = true) :
    hasError ss = true := by
  obtain ⟨more, rfl⟩ := h
  rw [hasError_append, he, Bool.true_or]

/-- Two resolvers answer alike in related states. -/
def Resolver.Simulates (R : σ → τ → Prop) (resolve : Resolver σ) (resolve' : Resolver τ) : Prop :=
  ∀ path i j, R i j → ∃ a i' j', resolve path i = (a, i') ∧ resolve' path j = (a, j') ∧ R i' j'

/-- The late resolvers of a family give the answers of another one that bring no error. -/
def Resolver.FollowedBy (R : σ → τ → Prop) (resolve : Resolver σ) (family : Nat → Resolver τ) :
    Prop :=
  ∀ path i j found rs i', R i j → resolve path i = (.answered found rs, i') → hasError rs = false →
    ∃ m j', R i' j' ∧ ∀ n, m ≤ n → family n path j = (.answered found rs, j')

namespace Parser

/-! ## Errors in answers -/

theorem takeAnswer_hasError (start : Nat) (purpose : Purpose) (found : Option Definition)
    {rs : List Report} {s : ParserState} (hs : s.recovering = false) (he : hasError rs = true) :
    Yields (takeAnswer start purpose found rs) s fun _ t => hasError t.reports = true := by
  have hrs : Yields (addReports (rs.map (Report.orAt (some start)))) s fun _ t =>
      hasError t.reports = true := by
    refine Yields.of_modify ?_
    simp only [hs, Bool.false_eq_true, if_false, hasError_append, hasError_map_orAt, he,
      Bool.or_true]
  refine Yields.bind hrs fun _ t ht => ?_
  have hg : Moves (Grows False) (finishImport start found purpose) :=
    finishImport_grows start False.elim purpose
  exact (hg t).mono fun _ u hu => hasError_of_isPrefix hu.reports ht

theorem statements_takeAnswer_hasError (resolve : Resolver σ) {s t : ParserState} {path : String}
    {start : Nat} {purpose : Purpose} (hs : s.recovering = false)
    (hst : statement.run s = (.importing path start purpose, t)) {rs : List Report}
    (he : hasError rs = true) (found : Option Definition) (n : Nat) (i : σ) :
    hasError (statements resolve n ((takeAnswer start purpose found rs).run t).2 i).2.1.reports
      = true := by
  have hg : Grows False s (statement.run s).2 := statement_grows s
  rw [hst] at hg
  have htold := takeAnswer_hasError start purpose found (hg.recovering.trans hs) he
  have hrest : Grows False _ (statements resolve n
      ((takeAnswer start purpose found rs).run t).2 i).2.1 :=
    statements_grows False.elim n _ i
  exact hasError_of_isPrefix hrest.reports htold

/-- A run that asks for a path whose answer brings an error has an error at the end, or does not
come to the end. -/
theorem statements_hasError {n : Nat} {s : ParserState} {i j : σ} {path : String}
    (hs : s.recovering = false) (hreq : (path, j) ∈ requests resolve n s i)
    (he : ∀ found rs, (resolve path j).1 = .answered found rs → hasError rs = true) :
    (statements resolve n s i).1 = false
      ∨ hasError (statements resolve n s i).2.1.reports = true := by
  induction n generalizing s i with
  | zero => simp [requests] at hreq
  | succ n ih =>
    have hg : Grows False s (turn resolve s i).2.1 := turn_grows False.elim s i
    have ht := turn_turned resolve s i
    unfold requests at hreq
    unfold statements
    generalize turn resolve s i = r at ht hg hreq
    cases ht with
    | ended hr _ => simp [hr] at hreq
    | complete hr _ =>
      simp only [hr, Option.map_none, Option.toList_none, List.nil_append] at hreq
      exact ih (hg.recovering.trans hs) hreq
    | brokenDown _ _ _ => exact .inl rfl
    | @answered t path' start purpose found rs k hr hst ha =>
      simp only [hr, Option.map_some, Option.toList_some, List.singleton_append, List.mem_cons,
        Prod.mk.injEq] at hreq
      rcases hreq with ⟨rfl, rfl⟩ | hreq
      · have herror : hasError rs = true := he found rs (by rw [ha])
        exact .inr (statements_takeAnswer_hasError resolve hs hst herror found n k)
      · exact ih (hg.recovering.trans hs) hreq

theorem compile_success {config : Config} {visible : Definition} {source : Source} {i : σ}
    (h : (compile config resolve visible source i).1.isSuccess = true) :
    ∃ t j, statements resolve (source.length + 2) (start config visible source) i = (true, t, j)
      ∧ t.exhausted = false ∧ hasError t.reports = false := by
  obtain ⟨ended, t, j, hrun⟩ : ∃ ended t j, statements resolve (source.length + 2)
      (start config visible source) i = (ended, t, j) := ⟨_, _, _, rfl⟩
  rw [compile_eq hrun, Compiled.isSuccess] at h
  split at h
  · rename_i hdone
    simp only [Bool.and_eq_true, Bool.not_eq_true'] at hdone h
    exact ⟨t, j, hdone.1 ▸ hrun, hdone.2, h⟩
  · simp [breakDown_hasError] at h

/-! ## Runs side by side -/

theorem statements_simulate {resolve' : Resolver τ} {R : σ → τ → Prop}
    (h : resolve.Simulates R resolve') (n : Nat) (s : ParserState) {i : σ} {j : τ} (hij : R i j) :
    ∃ ended t i' j', statements resolve n s i = (ended, t, i')
      ∧ statements resolve' n s j = (ended, t, j') ∧ R i' j' := by
  induction n generalizing s i j with
  | zero => exact ⟨false, s, i, j, rfl, rfl, hij⟩
  | succ n ih =>
    unfold statements turn
    cases hs : statement.run s with
    | mk r t =>
      cases r with
      | endOfFile => exact ⟨true, t, i, j, rfl, rfl, hij⟩
      | complete => exact ih t hij
      | importing path start purpose =>
        obtain ⟨a, i', j', hi, hj, hij'⟩ := h path i j hij
        simp only [hi, hj]
        cases a with
        | answered found rs => exact ih _ hij'
        | crashed => exact ⟨false, t, i', j', rfl, rfl, hij'⟩

theorem compile_simulate {resolve' : Resolver τ} {R : σ → τ → Prop}
    (h : resolve.Simulates R resolve') (config : Config) (visible : Definition) (source : Source)
    {i : σ} {j : τ} (hij : R i j) :
    ∃ c i' j', compile config resolve visible source i = (c, i')
      ∧ compile config resolve' visible source j = (c, j') ∧ R i' j' := by
  obtain ⟨ended, t, i', j', hi, hj, hij'⟩ :=
    statements_simulate h (source.length + 2) (start config visible source) hij
  rw [compile_eq hi, compile_eq hj]
  split
  · exact ⟨_, i', j', rfl, rfl, hij'⟩
  · exact ⟨_, i', j', rfl, rfl, hij'⟩

/-- A run that ends without errors goes the same way with the late resolvers of the family. -/
theorem statements_follow {family : Nat → Resolver τ} {R : σ → τ → Prop}
    (h : resolve.FollowedBy R family) {k : Nat} {s t : ParserState} {i i' : σ} {j : τ}
    (hs : s.recovering = false)
    (hrun : statements resolve k s i = (true, t, i')) (ht : hasError t.reports = false)
    (hij : R i j) :
    ∃ m j', R i' j' ∧ ∀ n, m ≤ n → statements (family n) k s j = (true, t, j') := by
  induction k generalizing s i j with
  | zero => simp [statements] at hrun
  | succ k ih =>
    have hg : Grows False s (turn resolve s i).2.1 := turn_grows False.elim s i
    have hturned := turn_turned resolve s i
    unfold statements at hrun
    generalize turn resolve s i = r at hturned hg hrun
    cases hturned with
    | ended _ hst =>
      simp only [Prod.mk.injEq, true_and] at hrun
      obtain ⟨rfl, rfl⟩ := hrun
      exact ⟨0, j, hij, fun n _ => by simp only [statements, turn, hst]⟩
    | complete _ hst =>
      obtain ⟨m, j', hj', hfollow⟩ := ih (hg.recovering.trans hs) hrun hij
      exact ⟨m, j', hj', fun n hn => by simp only [statements, turn, hst, hfollow n hn]⟩
    | brokenDown _ _ _ => simp at hrun
    | @answered u path start purpose found rs i₁ _ hst ha =>
      replace hrun : statements resolve k ((takeAnswer start purpose found rs).run u).2 i₁
          = (true, t, i') := hrun
      have hrs : hasError rs = false := by
        rw [← Bool.not_eq_true]
        intro he
        have hend := statements_takeAnswer_hasError resolve hs hst he found k i₁
        rw [hrun, ht] at hend
        exact Bool.false_ne_true hend
      obtain ⟨m, j₁, hj₁, hanswer⟩ := h path i j found rs i₁ hij ha hrs
      obtain ⟨m', j', hj', hfollow⟩ := ih (hg.recovering.trans hs) hrun hj₁
      refine ⟨max m m', j', hj', fun n hn => ?_⟩
      have hfirst := hanswer n ((Nat.le_max_left m m').trans hn)
      have hrest := hfollow n ((Nat.le_max_right m m').trans hn)
      simp only [statements, turn, hst, hfirst, hrest]

theorem compile_follow {family : Nat → Resolver τ} {R : σ → τ → Prop}
    (h : resolve.FollowedBy R family) {config : Config} {visible : Definition} {source : Source}
    {c : Compiled} {i i' : σ} {j : τ}
    (hc : compile config resolve visible source i = (c, i')) (hok : c.isSuccess = true)
    (hij : R i j) :
    ∃ m j', R i' j' ∧ ∀ n, m ≤ n → compile config (family n) visible source j = (c, j') := by
  have hsuccess : (compile config resolve visible source i).1.isSuccess = true := by rw [hc, hok]
  obtain ⟨t, k, hrun, hexhausted, herror⟩ := compile_success hsuccess
  obtain ⟨m, j', hj', hfollow⟩ := statements_follow h rfl hrun herror hij
  rw [compile_of_ended hrun hexhausted, Prod.mk.injEq] at hc
  obtain ⟨rfl, rfl⟩ := hc
  exact ⟨m, j', hj', fun n hn => compile_of_ended (hfollow n hn) hexhausted⟩

end Parser

end ConfigScript
