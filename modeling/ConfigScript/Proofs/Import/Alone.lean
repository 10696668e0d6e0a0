import ConfigScript.Proofs.Import.FailedImport
import ConfigScript.Proofs.Import.History

/-! # Paths on their own

What a path resolves to if there are no results at hand: each script is compiled with what its
imports resolve to in the same way. This needs no session, and where it comes to a result, a
session comes to the same one, unless it got a failed import before. -/

namespace ConfigScript

open ConfigScript.Parser

/-- Answers imports with the given results, and breaks down where there is none. -/
def answering (results : String → Option Resolution) : Resolver Unit := fun path _ =>
  (match results path with
    | some r => .answered r.usable? []
    | none => .crashed, ())

/-- What a path resolves to on its own, without errors and with imports nested less deep than the
given bound. -/
def Environment.alone (e : Environment) : Nat → String → Option Resolution
  | 0, _ => none
  | n + 1, path =>
    match e.script? path with
    | some source =>
      let c := (compile e.config (answering (alone e n)) {} source ()).1
      if c.isSuccess then some (.compiled c) else none
    | none =>
      match search path (Library.provider :: e.units) with
      | .found u => some (.provided u)
      | _ => none

variable {e : Environment} {depth m n : Nat} {chain : List String} {path q : String}
  {source : Source} {c : Compiled} {r r' : Resolution}

theorem answering_some {results : String → Option Resolution} (h : results path = some r) :
    answering results path () = (.answered r.usable? [], ()) := by
  simp only [answering, h]

theorem answering_answered {results : String → Option Resolution} {found : Option Definition}
    {rs : List Report} (h : answering results path () = (.answered found rs, ())) :
    ∃ r, results path = some r ∧ found = r.usable? ∧ rs = [] := by
  cases hr : results path with
  | none => simp [answering, hr] at h
  | some r =>
    rw [answering_some hr, Prod.mk.injEq, ImportAnswer.answered.injEq] at h
    exact ⟨r, rfl, h.1.1.symm, h.1.2.symm⟩

namespace Environment

/-! ## Results on their own -/

theorem alone_unit {u : ImportedUnit} (h : search path (Library.provider :: e.units) = .found u)
    (n : Nat) : e.alone (n + 1) path = some (.provided u) := by
  have hs : e.script? path = none := by simp only [script?, h]
  simp only [alone, hs, h]

theorem alone_script (hs : e.script? path = some source)
    (hc : compile e.config (answering (e.alone n)) {} source () = (c, ()))
    (hok : c.isSuccess = true) : e.alone (n + 1) path = some (.compiled c) := by
  simp only [alone, hs, hc, hok, if_true]

theorem alone_cases (h : e.alone (n + 1) path = some r) :
    (∃ u, search path (Library.provider :: e.units) = .found u ∧ r = .provided u)
      ∨ ∃ source c, e.script? path = some source
        ∧ compile e.config (answering (e.alone n)) {} source () = (c, ())
        ∧ c.isSuccess = true ∧ r = .compiled c := by
  rw [alone] at h
  cases hs : e.script? path with
  | some source =>
    obtain ⟨c, hc⟩ : ∃ c, compile e.config (answering (e.alone n)) {} source () = (c, ()) :=
      ⟨_, rfl⟩
    simp only [hs, hc, Option.ite_none_right_eq_some, Option.some.injEq] at h
    exact .inr ⟨source, c, rfl, hc, h.1, h.2.symm⟩
  | none =>
    cases hu : search path (Library.provider :: e.units) with
    | found u =>
      simp only [hs, hu, Option.some.injEq] at h
      exact .inl ⟨u, rfl, h.symm⟩
    | missing failed => simp [hs, hu] at h
    | crashed => simp [hs, hu] at h

theorem alone_succ (h : e.alone n path = some r) : e.alone (n + 1) path = some r := by
  induction n generalizing path r with
  | zero => simp [alone] at h
  | succ n ih =>
    rcases alone_cases h with ⟨u, hu, rfl⟩ | ⟨source, c, hs, hc, hok, rfl⟩
    · exact alone_unit hu (n + 1)
    · have hans : (answering (e.alone n)).FollowedBy (fun _ _ => True)
          fun _ => answering (e.alone (n + 1)) := by
        intro path _ _ found rs _ _ ha _
        obtain ⟨r, hr, rfl, rfl⟩ := answering_answered ha
        exact ⟨0, (), trivial, fun _ _ => answering_some (ih hr)⟩
      obtain ⟨m, j, -, hfollow⟩ := compile_follow hans hc hok trivial
      exact alone_script hs (hfollow m (Nat.le_refl m)) hok

theorem alone_le (h : e.alone m path = some r) (hmn : m ≤ n) : e.alone n path = some r := by
  induction hmn with
  | refl => exact h
  | step _ ih => exact alone_succ ih

theorem alone_none (h : e.alone (n + 1) path = none) : e.alone n path = none := by
  cases hr : e.alone n path with
  | none => rfl
  | some r => simp [alone_succ hr] at h

theorem alone_unique (h : e.alone m path = some r) (h' : e.alone n path = some r') : r = r' := by
  have hm := alone_le h (Nat.le_max_left m n)
  rw [alone_le h' (Nat.le_max_right m n), Option.some.injEq] at hm
  exact hm.symm

end Environment

namespace Session

variable {s t : Session}

/-! ## Requests while no import breaks down -/

theorem Strands.resolving_eq {loses : String → Prop} {lost : List String}
    (hl : ∀ path, ¬loses path) (h : Strands loses s t lost) : t.resolving = s.resolving := by
  have hnil : lost = [] :=
    List.eq_nil_iff_forall_not_mem.mpr fun path hp => hl path (h.kind path hp)
  rw [h.resolving, hnil, List.append_nil]

theorem Nested.of_resolving (h : Nested e depth chain s) (ht : t.resolving = s.resolving) :
    Nested e depth chain t := h.of_strands (.of_eq ht)

theorem answer_resolving (hl : ∀ path, ¬e.Loses path) (hn : Nested e depth chain s)
    (path : String) : (answerWith (resolve e depth) false path s).2.resolving = s.resolving := by
  obtain ⟨lost, hlost⟩ := answer_strands hn false path
  exact hlost.resolving_eq hl

/-! ## Results at hand that stay -/

theorem Resolved.keeps {a : PathAnswer} (h : Resolved e path s depth (a, t))
    (hc : s.cached? q = some r)
    (hunit : ∀ d source, depth = d + 1 → path ∉ s.resolving → e.script? path = some source →
      (compile e.config (imports e d) {} source (s.enter path)).2.cached? q = some r) :
    t.cached? q = some r := by
  cases h with
  | cycle _ => exact hc
  | crashed _ _ => exact hc
  | provided _ _ _ => exact hc
  | missing _ _ _ => exact hc
  | tooDeep _ _ => exact hc
  | @script d source c u hp hs hcompile =>
    have hu := hunit d source rfl hp hs
    rw [hcompile] at hu
    exact hu

theorem answer_keeps (hl : ∀ path, ¬e.Loses path) (hn : Nested e depth chain s)
    (hq : q ∉ s.resolving) (hc : s.cached? q = some r) (path : String) :
    (answerWith (resolve e depth) false path s).2.cached? q = some r := by
  induction depth using Nat.strongRecOn generalizing chain path s with
  | ind depth ih =>
    have hresolve (hnone : s.cached? path = none) :
        (resolve e depth path s).2.cached? q = some r := by
      refine (resolve_resolved e depth path s).keeps hc fun d source hd hp hs => ?_
      subst hd
      have hinside : q ∉ (s.enter path).resolving := by
        rw [mem_enter, not_or]
        refine ⟨hq, ?_⟩
        rintro rfl
        simp [hnone] at hc
      have himports (other : String) (i : Session)
          (hi : i.resolving = (s.enter path).resolving ∧ i.cached? q = some r) :
          (imports e d other i).2.resolving = (s.enter path).resolving
            ∧ (imports e d other i).2.cached? q = some r := by
        have hni := (hn.enter hp hs).of_resolving hi.1
        exact ⟨(answer_resolving hl hni other).trans hi.1,
          ih d (Nat.lt_succ_self d) hni (hi.1 ▸ hinside) hi.2 other⟩
      have hkeep := compile_keep himports e.config {} source ⟨rfl, hc⟩
      exact hkeep.2
    have hanswered := answerWith_answered (resolve e depth) false path s
    generalize answerWith (resolve e depth) false path s = result at hanswered
    cases hanswered with
    | cached _ _ => exact hc
    | crashed hnone hr =>
      have hu := hresolve (hnone rfl)
      rw [hr] at hu
      exact hu
    | kept hnone hr =>
      have hu := hresolve (hnone rfl)
      rw [hr] at hu
      rw [cached?_keep, if_neg]
      · exact hu
      · rintro rfl
        simp [hnone rfl] at hc

/-! ## Results at hand that are those of paths on their own -/

/-- Each result is what its path resolves to on its own. -/
def Sound (e : Environment) (s : Session) : Prop :=
  ∀ path r, s.cached? path = some r → ∃ n, e.alone n path = some r

/-- There is a result of a path that failed. -/
def Spoilt (s : Session) : Prop := ∃ path r, s.cached? path = some r ∧ r.isSuccess = false

theorem Sound.keep (h : Sound e s) (hr : ∃ n, e.alone n path = some r) :
    Sound e (s.keep path r) := by
  intro other r' hr'
  rw [cached?_keep] at hr'
  split at hr'
  · rename_i hother
    rw [hother, ← Option.some.inj hr']
    exact hr
  · exact h other r' hr'

/-- A request is answered without errors, with what the path resolves to on its own, or the path
failed and that is kept. -/
inductive Outcome (e : Environment) (path : String) : PathAnswer × Session → Prop
  | alone {r : Resolution} {t : Session} (hr : ∃ n, e.alone n path = some r) (ht : Sound e t) :
    Outcome e path (.resolved r [], t)
  | failed {r : Resolution} {rs : List Report} {t : Session} (hrs : hasError rs = true)
    (hr : r.isSuccess = false) (ht : t.cached? path = some r) : Outcome e path (.resolved r rs, t)

/-- If requests come to that, a script without errors compiles to what it does on its own. -/
theorem script_alone {d : Nat} (hl : ∀ path, ¬e.Loses path) (hn : Nested e d chain s)
    (hans : ∀ path i, Nested e d chain i → Sound e i →
      Outcome e path (answerWith (resolve e d) false path i))
    (hs : Sound e s) (hc : compile e.config (imports e d) {} source s = (c, t))
    (hok : c.isSuccess = true) :
    Sound e t ∧ ∃ m, compile e.config (answering (e.alone m)) {} source () = (c, ()) := by
  have hfollowed : (imports e d).FollowedBy (fun i _ => Nested e d chain i ∧ Sound e i)
      fun n => answering (e.alone n) := by
    rintro path i _ found rs i' ⟨hni, hi⟩ ha hrs
    have hni' := hni.of_resolving (answer_resolving hl hni path)
    have houtcome := hans path i hni hi
    unfold imports at ha
    generalize answerWith (resolve e d) false path i = result at ha hni' houtcome
    cases houtcome with
    | @alone r u hr hu =>
      simp only [PathAnswer.forImport, Prod.mk.injEq, ImportAnswer.answered.injEq] at ha
      obtain ⟨⟨rfl, rfl⟩, rfl⟩ := ha
      obtain ⟨m, hm⟩ := hr
      exact ⟨m, (), ⟨hni', hu⟩, fun n hn => answering_some (e.alone_le hm hn)⟩
    | failed herror _ _ =>
      simp only [PathAnswer.forImport, Prod.mk.injEq, ImportAnswer.answered.injEq] at ha
      simp [← ha.1.2, herror] at hrs
  obtain ⟨m, i, ⟨-, ht⟩, hfollow⟩ := compile_follow hfollowed hc hok ⟨hn, hs⟩
  exact ⟨ht, m, hfollow m (Nat.le_refl m)⟩

theorem hasError_scriptReports (h : c.isSuccess = false) :
    hasError (scriptReports path c) = true := by
  rw [scriptReports, h]
  rfl

/-- Resolving a path comes to what it does on its own, or fails with an error. -/
theorem Resolved.outcome {a : PathAnswer} (h : Resolved e path s depth (a, t))
    (hl : ∀ path, ¬e.Loses path) (hn : Nested e depth chain s) (hs : Sound e s)
    (hunit : ∀ d source c u, depth = d + 1 → path ∉ s.resolving → e.script? path = some source →
      compile e.config (imports e d) {} source (s.enter path) = (c, u) → c.isSuccess = true →
      Sound e u ∧ ∃ m, compile e.config (answering (e.alone m)) {} source () = (c, ())) :
    ∃ r rs, a = .resolved r rs ∧
      (rs = [] ∧ (∃ n, e.alone n path = some r) ∧ Sound e t
        ∨ ConfigScript.hasError rs = true ∧ r.isSuccess = false) := by
  cases h with
  | cycle _ => exact ⟨_, _, rfl, .inr ⟨hasError_cycleReport _ _, rfl⟩⟩
  | crashed _ hc => exact absurd (.inl hc) (hl path)
  | provided _ _ hu => exact ⟨_, _, rfl, .inl ⟨rfl, ⟨1, Environment.alone_unit hu 0⟩, hs⟩⟩
  | missing _ _ _ => exact ⟨_, _, rfl, .inr ⟨rfl, rfl⟩⟩
  | tooDeep hp hf => exact absurd (.inr (hn.not_bounded hp hf)) (hl path)
  | @script d source c u hp hf hc =>
    refine ⟨_, _, rfl, ?_⟩
    cases hok : c.isSuccess with
    | false => exact .inr ⟨hasError_scriptReports hok, hok⟩
    | true =>
      obtain ⟨hu, m, hm⟩ := hunit d source c u rfl hp hf hc hok
      refine .inl ⟨by rw [scriptReports, hok]; rfl, ⟨m + 1, ?_⟩, hu⟩
      exact Environment.alone_script hf hm hok

theorem answer_outcome (hl : ∀ path, ¬e.Loses path) (hn : Nested e depth chain s)
    (hs : Sound e s) (path : String) :
    Outcome e path (answerWith (resolve e depth) false path s) := by
  induction depth using Nat.strongRecOn generalizing chain path s with
  | ind depth ih =>
    have hresolve (a : PathAnswer) (t : Session) (hr : resolve e depth path s = (a, t)) :
        ∃ r rs, a = .resolved r rs ∧
          (rs = [] ∧ (∃ n, e.alone n path = some r) ∧ Sound e t
            ∨ hasError rs = true ∧ r.isSuccess = false) := by
      have hres := resolve_resolved e depth path s
      rw [hr] at hres
      refine hres.outcome hl hn hs fun d source c u hd hp hf hc hok => ?_
      subst hd
      have hans (other : String) (i : Session) (hi : Nested e d (chain ++ [path]) i)
          (hi' : Sound e i) : Outcome e other (answerWith (resolve e d) false other i) :=
        ih d (Nat.lt_succ_self d) hi hi' other
      exact script_alone hl (hn.enter hp hf) hans hs hc hok
    have hanswered := answerWith_answered (resolve e depth) false path s
    generalize answerWith (resolve e depth) false path s = result at hanswered
    cases hanswered with
    | cached _ hc => exact .alone (hs path _ hc) hs
    | crashed _ hr =>
      obtain ⟨r, rs, ha, -⟩ := hresolve _ _ hr
      simp at ha
    | kept _ hr =>
      obtain ⟨r, rs, ha, hout⟩ := hresolve _ _ hr
      rw [PathAnswer.resolved.injEq] at ha
      obtain ⟨rfl, rfl⟩ := ha
      rcases hout with ⟨rfl, hr, ht⟩ | ⟨herror, hfail⟩
      · exact .alone hr (ht.keep hr)
      · exact .failed herror hfail (by rw [cached?_keep, if_pos rfl])

/-! ## Operations -/

/-- Between operations no path is in progress, and the results are those of the paths on their own,
unless one failed. -/
structure Settled (e : Environment) (s : Session) : Prop where
  idle : s.resolving = []
  sound : Sound e s ∨ Spoilt s

theorem settled_empty (e : Environment) : Settled e {} := ⟨rfl, .inl nofun⟩

theorem answer_settled (hl : ∀ path, ¬e.Loses path) (h : Settled e s) (path : String) :
    Settled e (answerWith (resolve e e.depth) false path s).2 := by
  have hn : Nested e e.depth [] s := nested_start e s
  refine ⟨(answer_resolving hl hn path).trans h.idle, ?_⟩
  rcases h.sound with hs | ⟨q, r, hc, hr⟩
  · have houtcome := answer_outcome hl hn hs path
    generalize answerWith (resolve e e.depth) false path s = result at houtcome
    cases houtcome with
    | alone _ ht => exact .inl ht
    | failed _ hr ht => exact .inr ⟨path, _, ht, hr⟩
  · exact .inr ⟨q, r, answer_keeps hl hn (by simp [h.idle]) hc path, hr⟩

theorem perform_settled (hl : ∀ path, ¬e.Loses path) (h : Settled e s) (op : Operation) :
    Settled e (e.perform op s) := by
  cases op with
  | get path => exact answer_settled hl h path
  | read visible source =>
    have himports (path : String) (i : Session) (hi : Settled e i) :
        Settled e (imports e e.depth path i).2 := answer_settled hl hi path
    exact compile_keep himports e.config visible source h
  | clear => exact ⟨h.idle, .inl nofun⟩

theorem after_settled (hl : ∀ path, ¬e.Loses path) (h : Settled e s) (ops : List Operation) :
    Settled e (e.after ops s) := by
  induction ops generalizing s with
  | nil => exact h
  | cons op ops ih => exact ih (perform_settled hl h op)

theorem Settled.of_success (h : Settled e s)
    (hok : ∀ path r, s.cached? path = some r → r.isSuccess = true) : Sound e s := by
  rcases h.sound with hs | ⟨path, r, hc, hr⟩
  · exact hs
  · simp [hok path r hc] at hr

end Session

end ConfigScript
