import ConfigScript.Proofs.Import.Alone
import ConfigScript.Proofs.Import.DepthFirst

/-! # Results at hand are transparent

When a path that resolves on its own is asked for, the paths in progress import it, so they cannot
resolve with as few imports nested as it does. So a session gives for the path what it comes to on
its own, whatever the session was used for before. Two sessions that have the same results for all
other paths answer alike. -/

namespace ConfigScript

open ConfigScript.Parser

namespace Session

variable {e : Environment} {depth n : Nat} {chain : List String} {path q : String} {source : Source}
  {c : Compiled} {r : Resolution} {s t u : Session}

/-! ## Paths that resolve on their own -/

/-- A result for a path that resolves on its own is what that comes to. -/
def Faithful (e : Environment) (s : Session) : Prop :=
  ∀ path r n r', s.cached? path = some r → e.alone n path = some r' → r = r'

theorem Sound.faithful (h : Sound e s) : Faithful e s := by
  intro path r n r' hc hr'
  obtain ⟨m, hr⟩ := h path r hc
  exact Environment.alone_unique hr hr'

theorem Faithful.keep (h : Faithful e s) (hr : ∀ n r', e.alone n path = some r' → r = r') :
    Faithful e (s.keep path r) := by
  intro other r' n r'' hc ha
  rw [cached?_keep] at hc
  split at hc
  · rename_i hother
    rw [← Option.some.inj hc]
    exact hr n r'' (hother ▸ ha)
  · exact h other r' n r'' hc ha

/-- The path does not resolve on its own. -/
def Unsettled (e : Environment) (path : String) : Prop := ∀ n, e.alone n path = none

/-- The same paths are in progress in two sessions, and the same results are at hand for paths that
do not resolve on their own. -/
structure Aligned (e : Environment) (s t : Session) : Prop where
  resolving : t.resolving = s.resolving
  unsettled : ∀ path, Unsettled e path → t.cached? path = s.cached? path

theorem Aligned.refl (s : Session) : Aligned e s s := ⟨rfl, fun _ _ => rfl⟩

theorem Aligned.symm (h : Aligned e s t) : Aligned e t s :=
  ⟨h.resolving.symm, fun path hp => (h.unsettled path hp).symm⟩

theorem Aligned.trans (h : Aligned e s t) (g : Aligned e t u) : Aligned e s u :=
  ⟨g.resolving.trans h.resolving, fun path hp => (g.unsettled path hp).trans (h.unsettled path hp)⟩

theorem Aligned.enter (h : Aligned e s t) (path : String) :
    Aligned e (s.enter path) (t.enter path) :=
  ⟨by simp only [Session.enter, h.resolving], h.unsettled⟩

theorem Aligned.leave (h : Aligned e s t) (path : String) :
    Aligned e (s.leave path) (t.leave path) :=
  ⟨by simp only [Session.leave, h.resolving], h.unsettled⟩

theorem Aligned.leave_enter (h : Aligned e (s.enter path) t) (hp : path ∉ s.resolving) :
    Aligned e s (t.leave path) := ⟨Session.leave_enter hp h.resolving, h.unsettled⟩

theorem Aligned.keep (h : Aligned e s t) (path : String) (r : Resolution) :
    Aligned e (s.keep path r) (t.keep path r) := by
  refine ⟨h.resolving, fun other ho => ?_⟩
  rw [cached?_keep, cached?_keep, h.unsettled other ho]

theorem Aligned.keep_settled (h : Aligned e s t) (hr : e.alone n path = some r) (r' : Resolution) :
    Aligned e s (t.keep path r') := by
  refine ⟨h.resolving, fun other ho => ?_⟩
  rw [cached?_keep, if_neg]
  · exact h.unsettled other ho
  · rintro rfl
    simp [ho n] at hr

theorem resolve_unit {v : ImportedUnit} (hp : path ∉ s.resolving)
    (hv : search path (Library.provider :: e.units) = .found v) (depth : Nat) :
    resolve e depth path s = (.resolved (.provided v) [], s) := by
  unfold resolve
  simp only [List.contains_iff_mem, hp, if_false, hv, leave_enter_self hp]

/-- The request is answered with the result and no report, which changes nothing for the paths that
do not resolve on their own. -/
def Gives (e : Environment) (depth : Nat) (path : String) (r : Resolution) (s : Session) : Prop :=
  ∃ t, answerWith (resolve e depth) false path s = (.resolved r [], t)
    ∧ Faithful e t ∧ Aligned e s t

/-- Below a chain, a request for a path that resolves with few imports nested gives what that comes
to, while no path is in progress that resolves with as few. -/
def GivesAlone (e : Environment) (n depth : Nat) (chain : List String) : Prop :=
  ∀ path r s, e.alone n path = some r → Nested e depth chain s → Faithful e s →
    (∀ q ∈ s.resolving, e.alone n q = none) → Gives e depth path r s

/-- A script that compiles on its own compiles to the same in such a session. -/
theorem script_gives (hans : GivesAlone e n depth chain) (hn : Nested e depth chain s)
    (hs : Faithful e s) (hlater : ∀ q ∈ s.resolving, e.alone n q = none)
    (hc : compile e.config (answering (e.alone n)) {} source () = (c, ()))
    (hok : c.isSuccess = true) :
    ∃ t, compile e.config (imports e depth) {} source s = (c, t) ∧ Faithful e t
      ∧ Aligned e s t := by
  have hfollowed : (answering (e.alone n)).FollowedBy
      (fun _ i => Nested e depth chain i ∧ Faithful e i ∧ Aligned e s i)
      fun _ => imports e depth := by
    rintro other _ i found rs _ ⟨hni, hi, hsi⟩ ha _
    obtain ⟨r, hr, rfl, rfl⟩ := answering_answered ha
    have hinside (q : String) (hq : q ∈ i.resolving) : e.alone n q = none :=
      hlater q (hsi.resolving ▸ hq)
    obtain ⟨t, hgives, ht, hit⟩ := hans other r i hr hni hi hinside
    have himports : imports e depth other i = (.answered r.usable? [], t) := by
      simp only [imports, hgives, PathAnswer.forImport]
    exact ⟨0, t, ⟨hni.of_resolving hit.resolving, ht, hsi.trans hit⟩, fun _ _ => himports⟩
  obtain ⟨m, t, ⟨-, ht, hst⟩, hfollow⟩ := compile_follow hfollowed hc hok ⟨hn, hs, .refl s⟩
  exact ⟨t, hfollow m (Nat.le_refl m), ht, hst⟩

theorem gives_kept {n' : Nat} (hr : e.alone n' path = some r) (hc : s.cached? path = none)
    (hres : resolve e depth path s = (.resolved r [], t)) (ht : Faithful e t)
    (hst : Aligned e s t) : Gives e depth path r s :=
  ⟨t.keep path r, answerWith_resolved hc hres,
    ht.keep fun _ _ ha => Environment.alone_unique hr ha, hst.keep_settled hr r⟩

theorem new_script_gives (hans : ∀ d, GivesAlone e n d (chain ++ [path]))
    (hn : Nested e (depth + 1) chain s) (hs : Faithful e s)
    (hlater : ∀ q ∈ s.resolving, e.alone n q = none) (hfew : e.alone n path = none)
    (hp : path ∉ s.resolving) (hnone : s.cached? path = none) (hf : e.script? path = some source)
    (hc : compile e.config (answering (e.alone n)) {} source () = (c, ()))
    (hok : c.isSuccess = true) : Gives e (depth + 1) path (.compiled c) s := by
  have hinside (q : String) (hq : q ∈ (s.enter path).resolving) : e.alone n q = none := by
    rcases mem_enter.mp hq with hq | rfl
    · exact hlater q hq
    · exact hfew
  obtain ⟨t, hthere, ht, hst⟩ := script_gives (hans depth) (hn.enter hp hf) hs hinside hc hok
  obtain ⟨c', t', hcompile, hres⟩ := resolve_script hp hf
  rw [hthere, Prod.mk.injEq] at hcompile
  obtain ⟨rfl, rfl⟩ := hcompile
  rw [scriptReports, if_pos hok] at hres
  exact gives_kept (Environment.alone_script hf hc hok) hnone hres ht (hst.leave_enter hp)

/-- A path that resolves on its own is given what that comes to, whatever the chain: the paths of
the chain resolve later, if they do. -/
theorem gives_alone (hl : ∀ path, ¬e.Loses path) (n depth : Nat) (chain : List String) :
    GivesAlone e n depth chain := by
  -- The induction is on how deep the imports of the path itself go, whatever depth is left.
  induction n generalizing depth chain with
  | zero => simp [GivesAlone, Environment.alone]
  | succ n ih =>
    intro path r s hr hn hs hlater
    have hp : path ∉ s.resolving := fun hp => by simp [hlater path hp] at hr
    have hsooner (q : String) (hq : q ∈ s.resolving) : e.alone n q = none :=
      Environment.alone_none (hlater q hq)
    have hnew (hc : s.cached? path = none) (hfew : e.alone n path = none) :
        Gives e depth path r s := by
      rcases Environment.alone_cases hr with ⟨v, hv, rfl⟩ | ⟨source, c, hf, hcompile, hok, rfl⟩
      · exact gives_kept hr hc (resolve_unit hp hv depth) hs (.refl s)
      · cases depth with
        | zero => exact absurd (.inr (hn.not_bounded hp hf)) (hl path)
        | succ depth =>
          exact new_script_gives (fun d => ih d (chain ++ [path])) hn hs hsooner hfew hp hc hf
            hcompile hok
    cases hc : s.cached? path with
    | some r' =>
      obtain rfl := hs path r' (n + 1) r hc hr
      exact ⟨s, answerWith_cached hc, hs, .refl s⟩
    | none =>
      cases hfew : e.alone n path with
      | none => exact hnew hc hfew
      | some r' =>
        obtain rfl := Environment.alone_unique hfew hr
        exact ih depth chain path r' s hfew hn hs hsooner

/-! ## Two sessions side by side -/

/-- Two sessions in which the same paths are in progress, none of which resolves on its own, with
the same results as far as that can make a difference. -/
structure Paired (e : Environment) (s t : Session) : Prop where
  aligned : Aligned e s t
  first : Faithful e s
  second : Faithful e t
  unsettled : ∀ path ∈ s.resolving, Unsettled e path

/-- Two sessions answer a request alike. -/
def AnswersAlike (e : Environment) (depth : Nat) (path : String) (s t : Session) : Prop :=
  ∃ a s' t', answerWith (resolve e depth) false path s = (a, s')
    ∧ answerWith (resolve e depth) false path t = (a, t') ∧ Paired e s' t'

theorem Paired.enter (h : Paired e s t) (hp : Unsettled e path) :
    Paired e (s.enter path) (t.enter path) := by
  refine ⟨h.aligned.enter path, h.first, h.second, fun other ho => ?_⟩
  rcases mem_enter.mp ho with ho | rfl
  · exact h.unsettled other ho
  · exact hp

theorem Paired.leave (h : Paired e s t) (path : String) :
    Paired e (s.leave path) (t.leave path) :=
  ⟨h.aligned.leave path, h.first, h.second,
    fun other ho => h.unsettled other (List.mem_of_mem_erase ho)⟩

theorem Paired.keep (h : Paired e s t) (hp : Unsettled e path) (r : Resolution) :
    Paired e (s.keep path r) (t.keep path r) :=
  ⟨h.aligned.keep path r, h.first.keep fun n r' ha => by simp [hp n] at ha,
    h.second.keep fun n r' ha => by simp [hp n] at ha, h.unsettled⟩

theorem resolve_paired (h : Paired e s t) (hp : Unsettled e path)
    (himports : ∀ d, depth = d + 1 → path ∉ s.resolving → ∀ source, e.script? path = some source →
      ∃ c s' t', compile e.config (imports e d) {} source (s.enter path) = (c, s')
        ∧ compile e.config (imports e d) {} source (t.enter path) = (c, t') ∧ Paired e s' t') :
    ∃ a s' t', resolve e depth path s = (a, s') ∧ resolve e depth path t = (a, t')
      ∧ Paired e s' t' := by
  have hcycle : t.cycle path = s.cycle path := by rw [cycle, cycle, h.aligned.resolving]
  have hentered : Paired e (s.enter path) (t.enter path) := h.enter hp
  unfold resolve
  rw [h.aligned.resolving, hcycle]
  split
  · exact ⟨_, s, t, rfl, rfl, h⟩
  · rename_i hnew
    cases hu : search path (Library.provider :: e.units) with
    | crashed => exact ⟨_, _, _, rfl, rfl, hentered⟩
    | found v => exact ⟨_, _, _, rfl, rfl, hentered.leave path⟩
    | missing unitsFailed =>
      cases hs : search path e.scripts with
      | crashed => exact ⟨_, _, _, rfl, rfl, hentered⟩
      | missing scriptsFailed => exact ⟨_, _, _, rfl, rfl, hentered.leave path⟩
      | found source =>
        cases depth with
        | zero => exact ⟨_, _, _, rfl, rfl, hentered⟩
        | succ d =>
          have hf : e.script? path = some source := by simp only [Environment.script?, hu, hs]
          obtain ⟨c, s', t', hc, hc', hpair⟩ :=
            himports d rfl (by simpa using hnew) source hf
          unfold imports at hc hc'
          simp only [hc, hc']
          exact ⟨_, _, _, rfl, rfl, hpair.leave path⟩

theorem settled_paired (hl : ∀ path, ¬e.Loses path) (hn : Nested e depth chain s)
    (h : Paired e s t) (hr : e.alone n path = some r) : AnswersAlike e depth path s t := by
  have hn' : Nested e depth chain t := hn.of_resolving h.aligned.resolving
  have hlater (q : String) (hq : q ∈ s.resolving) : e.alone n q = none := h.unsettled q hq n
  have hlater' (q : String) (hq : q ∈ t.resolving) : e.alone n q = none :=
    hlater q (h.aligned.resolving ▸ hq)
  obtain ⟨s', hs', hfirst, hss'⟩ := gives_alone hl n depth chain path r s hr hn h.first hlater
  obtain ⟨t', ht', hsecond, htt'⟩ := gives_alone hl n depth chain path r t hr hn' h.second hlater'
  have haligned : Aligned e s' t' := hss'.symm.trans (h.aligned.trans htt')
  have hunsettled (q : String) (hq : q ∈ s'.resolving) : Unsettled e q :=
    h.unsettled q (hss'.resolving ▸ hq)
  exact ⟨_, s', t', hs', ht', haligned, hfirst, hsecond, hunsettled⟩

theorem unsettled_paired (h : Paired e s t) (hp : Unsettled e path)
    (hres : ∃ a s' t', resolve e depth path s = (a, s') ∧ resolve e depth path t = (a, t')
      ∧ Paired e s' t') : AnswersAlike e depth path s t := by
  have hsame : t.cached? path = s.cached? path := h.aligned.unsettled path hp
  cases hc : s.cached? path with
  | some r => exact ⟨_, s, t, answerWith_cached hc, answerWith_cached (hsame.trans hc), h⟩
  | none =>
    obtain ⟨a, s', t', hs', ht', hpair⟩ := hres
    cases a with
    | resolved r rs =>
      exact ⟨_, _, _, answerWith_resolved hc hs', answerWith_resolved (hsame.trans hc) ht',
        hpair.keep hp r⟩
    | crashed =>
      refine ⟨.crashed, s', t', ?_, ?_, hpair⟩
      · simp [answerWith, hc, hs']
      · simp [answerWith, hsame, hc, ht']

theorem imports_paired (hl : ∀ path, ¬e.Loses path)
    (hans : ∀ path i j, Nested e depth chain i → Paired e i j → AnswersAlike e depth path i j) :
    (imports e depth).Simulates (fun i j => Nested e depth chain i ∧ Paired e i j)
      (imports e depth) := by
  rintro path i j ⟨hni, hij⟩
  obtain ⟨a, i', j', hi', hj', hpair⟩ := hans path i j hni hij
  have hresolving := answer_resolving hl hni path
  rw [hi'] at hresolving
  refine ⟨a.forImport, i', j', ?_, ?_, hni.of_resolving hresolving, hpair⟩
  · simp only [imports, hi']
  · simp only [imports, hj']

/-- Two sessions side by side answer alike. -/
theorem answer_paired (hl : ∀ path, ¬e.Loses path) (hn : Nested e depth chain s)
    (h : Paired e s t) (path : String) : AnswersAlike e depth path s t := by
  induction depth using Nat.strongRecOn generalizing chain path s t with
  | ind depth ih =>
    by_cases hp : Unsettled e path
    · refine unsettled_paired h hp (resolve_paired h hp fun d hd hnew source hf => ?_)
      subst hd
      have hans (other : String) (i j : Session) (hni : Nested e d (chain ++ [path]) i)
          (hij : Paired e i j) : AnswersAlike e d other i j :=
        ih d (Nat.lt_succ_self d) hni hij other
      obtain ⟨c, s', t', hc, hc', -, hpair⟩ :=
        compile_simulate (imports_paired hl hans) e.config {} source ⟨hn.enter hnew hf, h.enter hp⟩
      exact ⟨c, s', t', hc, hc', hpair⟩
    · obtain ⟨n, hsome⟩ := not_forall.mp hp
      obtain ⟨r, hr⟩ := Option.ne_none_iff_exists'.mp hsome
      exact settled_paired hl hn h hr

theorem Sound.paired (h : Sound e s) (hs : s.resolving = []) : Paired e s {} := by
  refine ⟨⟨hs.symm, fun path hp => ?_⟩, h.faithful, fun _ _ _ _ hc => ?_, fun path hp => ?_⟩
  · cases hc : s.cached? path with
    | none => rfl
    | some r =>
      obtain ⟨n, hr⟩ := h path r hc
      simp [hp n] at hr
  · simp [cached?] at hc
  · simp [hs] at hp

end Session

open Session

/-- If after some operations there is no failed result at hand, then every result is the one that a
new session gives for its path, and every script compiles to what it does in a new session. The
providers do not break down, and there are scripts for no more paths than their sizes say. -/
theorem results_transparent (e : Environment)
    (hu : ∀ p ∈ e.units, ∀ path, p.supply? path ≠ some .crash)
    (hs : ∀ p ∈ e.scripts, ∀ path, p.supply? path ≠ some .crash)
    (hf : ∀ p ∈ e.scripts, p.Finite) (ops : List Operation)
    (hok : ∀ path r, (e.after ops {}).cached? path = some r → r.isSuccess = true) :
    (∀ path r, (e.after ops {}).cached? path = some r → (e.get path {}).1 = .resolved r [])
      ∧ ∀ visible source,
        (e.read visible source (e.after ops {})).1 = e.readAlone visible source := by
  have hl (path : String) : ¬e.Loses path := by
    rintro (hcrash | hbound)
    · exact Environment.not_crashes hu hs path hcrash
    · exact hbound (Environment.bounded_of_finite hf)
  have hsettled : Settled e (e.after ops {}) := after_settled hl (settled_empty e) ops
  have hsound : Sound e (e.after ops {}) := hsettled.of_success hok
  have hpaired : Paired e (e.after ops {}) {} := hsound.paired hsettled.idle
  refine ⟨fun path r hc => ?_, fun visible source => ?_⟩
  · obtain ⟨n, hr⟩ := hsound path r hc
    obtain ⟨t, hgives, -⟩ :=
      gives_alone hl n e.depth [] path r {} hr (nested_start e {}) hpaired.second (by simp)
    rw [Environment.get, hgives]
  · have hans (path : String) (i j : Session) (hni : Nested e e.depth [] i) (hij : Paired e i j) :
        AnswersAlike e e.depth path i j := answer_paired hl hni hij path
    obtain ⟨c, s', t', hc, hc', -⟩ := compile_simulate (imports_paired hl hans) e.config visible
      source ⟨nested_start e (e.after ops {}), hpaired⟩
    rw [Environment.readAlone, read_eq, read_eq, hc, hc']

/-- A module that imports another one, each of them asked for after it was imported. -/
theorem results_transparent_nested :
    let e : Environment :=
      { scripts := [.ofTexts [("outer", "use inner\n[m]"), ("inner", "macro m : 1")]] }
    let source := Source.ofText "use outer\nuse inner\n[m]"
    let s := e.after [.read {} (Source.ofText "use outer"), .get "inner", .get "outer"] {}
    (s.cached? "outer").isSome = true ∧ (s.cached? "inner").isSome = true
      ∧ (∀ path r, s.cached? path = some r → (e.get path {}).1 = .resolved r [])
      ∧ (e.read {} source s).1 = e.readAlone {} source := by
  intro e source s
  have hall : (s.cache.all fun x => x.2.isSuccess) = true := by decide +kernel
  have hok (path : String) (r : Resolution) (hc : s.cached? path = some r) :
      r.isSuccess = true := by
    obtain ⟨before, after, hsplit, -⟩ := List.lookup_eq_some_iff.mp hc
    exact List.all_eq_true.mp hall (path, r) (by simp [hsplit])
  have hs : ∀ p ∈ e.scripts, ∀ path, p.supply? path ≠ some .crash := by
    intro p hp path
    rw [List.mem_singleton.mp hp]
    exact Provider.ofTexts_supply _ path
  have hf : ∀ p ∈ e.scripts, p.Finite := by
    intro p hp
    rw [List.mem_singleton.mp hp]
    exact Provider.finite_ofEntries _
  obtain ⟨hget, hread⟩ := results_transparent e (by simp [e]) hs hf _ hok
  exact ⟨by decide +kernel, by decide +kernel, hget, hread {} source⟩

end ConfigScript
