import ConfigScript.Proofs.Import.Moments
import ConfigScript.Proofs.Parser.Substitution
import Mathlib.Data.List.Nodup
import Mathlib.Data.List.Perm.Subperm

/-! # Imports are resolved depth first

The paths in progress are the chain of imports that leads to the script being compiled. A path on
the chain that is asked for again closes a cycle, and any other path is either at hand or new. So
the nesting is bounded by the number of paths that scripts stand for, and no script is compiled
twice as long as the results are kept. -/

namespace ConfigScript

open ConfigScript.Parser

variable {e : Environment} {depth : Nat} {chain : List String} {path : String} {s t u : Session}

namespace Session

/-! ## What an answer keeps and adds -/

/-- A session while the imports of a chain are in progress. -/
structure At (e : Environment) (chain : List String) (s : Session) : Prop where
  resolving : s.resolving = chain
  nodup : chain.Nodup
  scripts : ∀ path ∈ chain, ∃ source, e.script? path = some source
  checked : ∀ path r, s.cached? path = some r → OperatorsChecked r.usable?

/-- Between two sessions some paths are compiled, each once: before, there is no result for them
and they are not in progress; after, there is one. -/
structure Adds (s : Session) (paths : List String) (t : Session) : Prop where
  nodup : paths.Nodup
  fresh : ∀ path ∈ paths, s.cached? path = none ∧ path ∉ s.resolving
  kept : ∀ path, path ∈ paths ∨ (s.cached? path).isSome → (t.cached? path).isSome
  resolving : t.resolving = s.resolving

theorem Adds.refl (s : Session) : Adds s [] s :=
  ⟨List.nodup_nil, by simp, by simp, rfl⟩

theorem Adds.trans {ps qs : List String} (h : Adds s ps t) (g : Adds t qs u) :
    Adds s (ps ++ qs) u := by
  refine ⟨List.nodup_append.mpr ⟨h.nodup, g.nodup, ?_⟩, fun path hp => ?_, fun path hp => ?_,
    g.resolving.trans h.resolving⟩
  · rintro path hp _ hq rfl
    have hsome := h.kept path (.inl hp)
    rw [(g.fresh path hq).1] at hsome
    simp at hsome
  · rcases List.mem_append.mp hp with hp | hq
    · exact h.fresh path hp
    · refine ⟨?_, h.resolving ▸ (g.fresh path hq).2⟩
      rw [← Option.not_isSome_iff_eq_none]
      intro hsome
      have hsome := h.kept path (.inr hsome)
      rw [(g.fresh path hq).1] at hsome
      simp at hsome
  · rcases hp with hp | hs
    · rcases List.mem_append.mp hp with hp | hq
      · exact g.kept path (.inr (h.kept path (.inl hp)))
      · exact g.kept path (.inl hq)
    · exact g.kept path (.inr (h.kept path (.inr hs)))

theorem At.keep (h : At e chain s) {r : Resolution} (hr : OperatorsChecked r.usable?) :
    At e chain (s.keep path r) := by
  refine ⟨h.resolving, h.nodup, h.scripts, fun other r' hr' => ?_⟩
  rw [cached?_keep] at hr'
  split at hr'
  · exact Option.some.inj hr' ▸ hr
  · exact h.checked other r' hr'

theorem Adds.keep {paths : List String} (h : Adds s paths t) (r : Resolution) :
    Adds s paths (t.keep path r) := by
  refine ⟨h.nodup, h.fresh, fun other ho => ?_, h.resolving⟩
  rw [cached?_keep]
  split
  · rfl
  · exact h.kept other ho

theorem Adds.leave {paths : List String} (h : Adds (s.enter path) paths t)
    (hp : path ∉ s.resolving) : Adds s paths (t.leave path) :=
  ⟨h.nodup,
    fun other ho => ⟨(h.fresh other ho).1,
      fun hm => (h.fresh other ho).2 (mem_enter.mpr (.inl hm))⟩,
    h.kept, leave_enter hp h.resolving⟩

theorem Adds.cons {paths : List String} (h : Adds (s.enter path) paths t)
    (hc : s.cached? path = none) (hp : path ∉ s.resolving) (r : Resolution) :
    Adds s (path :: paths) ((t.leave path).keep path r) := by
  have hleave := h.leave hp
  refine ⟨List.nodup_cons.mpr ⟨fun hm => ?_, h.nodup⟩, fun other ho => ?_, fun other ho => ?_,
    hleave.resolving⟩
  · exact (h.fresh path hm).2 (by simp [enter])
  · rcases List.mem_cons.mp ho with rfl | ho
    · exact ⟨hc, hp⟩
    · exact hleave.fresh other ho
  · rw [cached?_keep]
    split
    · rfl
    · refine hleave.kept other (ho.imp_left fun ho => ?_)
      exact (List.mem_cons.mp ho).resolve_left ‹_›

theorem At.enter (h : At e chain s) (hp : path ∉ chain) {source : Source}
    (hs : e.script? path = some source) : At e (chain ++ [path]) (s.enter path) := by
  refine ⟨by rw [Session.enter, h.resolving], ?_, fun other ho => ?_, h.checked⟩
  · exact List.concat_eq_append ▸ List.Nodup.concat hp h.nodup
  · rcases List.mem_append.mp ho with ho | ho
    · exact h.scripts other ho
    · exact ⟨source, List.mem_singleton.mp ho ▸ hs⟩

theorem At.leave (h : At e chain s) (hp : path ∉ s.resolving)
    (ht : At e (chain ++ [path]) t) : At e chain (t.leave path) := by
  refine ⟨?_, h.nodup, h.scripts, ht.checked⟩
  rw [leave_enter hp (ht.resolving.trans (by rw [Session.enter, h.resolving])), h.resolving]

theorem At.length_le (he : e.Regular) (h : At e chain s) : chain.length ≤ e.depth := by
  obtain ⟨paths, hlen, hmem⟩ := he.bounded
  refine Nat.le_trans ((h.nodup.subperm fun path hp => ?_).length_le) hlen
  obtain ⟨source, hs⟩ := h.scripts path hp
  exact hmem path source hs

/-! ## Answers -/

/-- A request is answered, in a session that is as the chain says, and whatever it compiles it
compiles once. More depth changes nothing. -/
structure Answers (e : Environment) (depth : Nat) (chain : List String) (path : String)
    (s : Session) : Prop where
  found : ∃ r rs t, answerWith (resolve e depth) false path s = (.resolved r rs, t)
    ∧ OperatorsChecked r.usable? ∧ At e chain t ∧ Adds s (compiled e depth path s) t
  deeper : ∀ more, answerWith (resolve e (depth + more)) false path s
    = answerWith (resolve e depth) false path s

theorem Answers.imports (h : Answers e depth chain path s) :
    ∃ found rs t, Session.imports e depth path s = (.answered found rs, t)
      ∧ OperatorsChecked found ∧ At e chain t ∧ Adds s (compiled e depth path s) t := by
  obtain ⟨r, rs, t, ha, hr, ht, hadd⟩ := h.found
  exact ⟨r.usable?, rs, t, by simp only [Session.imports, ha, PathAnswer.forImport], hr, ht, hadd⟩

theorem answersIn (hans : ∀ path s, At e chain s → Answers e depth chain path s) :
    AnswersIn (At e chain) (Session.imports e depth) := by
  intro path s hs
  obtain ⟨found, rs, t, ha, hf, ht, -⟩ := (hans path s hs).imports
  exact ⟨found, rs, t, ha, hf, ht⟩

variable {source : Source} {p : ParserState}

/-- If all requests below a chain are answered, a script is read to its end there. -/
theorem unit_spec (hans : ∀ path s, At e chain s → Answers e depth chain path s)
    (hp : Ready source.chars p) (hs : At e chain s) :
    ∃ q t, statements (Session.imports e depth) (source.length + 2) p s = (true, q, t)
      ∧ Ready source.chars q ∧ Grows True p q ∧ At e chain t
      ∧ Adds s ((requests (Session.imports e depth) (source.length + 2) p s).flatMap
          fun (path, s) => compiled e depth path s) t := by
  have hleft : left p < source.length + 2 :=
    (hp.left_le.trans hp.onText.begins.length_le).trans_lt (Nat.lt_add_of_pos_right (by decide))
  have hanswer (path : String) (s : Session) (hs : At e chain s) :
      At e chain (Session.imports e depth path s).2
        ∧ Adds s (compiled e depth path s) (Session.imports e depth path s).2 := by
    obtain ⟨found, rs, t, ha, -, ht, hadd⟩ := (hans path s hs).imports
    rw [ha]
    exact ⟨ht, hadd⟩
  obtain ⟨q, t, hrun, hq, hg, ht⟩ := statements_ends (answersIn hans) hp hleft hs
  refine ⟨q, t, hrun, hq, hg, ht, ?_⟩
  have ht' : t = (statements (Session.imports e depth) (source.length + 2) p s).2.2 := by rw [hrun]
  rw [ht']
  exact statements_along Adds.refl (fun _ _ _ _ _ => Adds.trans) hanswer _ p hs

theorem unit_deeper (hans : ∀ path s, At e chain s → Answers e depth chain path s)
    (hs : At e chain s) (more : Nat) (visible : Definition) (source : Source) :
    compile e.config (Session.imports e (depth + more)) visible source s
      = compile e.config (Session.imports e depth) visible source s := by
  have hanswer (path : String) (s : Session) (hs : At e chain s) :
      Session.imports e depth path s = Session.imports e (depth + more) path s
        ∧ At e chain (Session.imports e depth path s).2 := by
    obtain ⟨found, rs, t, ha, -, ht, -⟩ := (hans path s hs).imports
    refine ⟨by rw [Session.imports, Session.imports, (hans path s hs).deeper more], ?_⟩
    rw [ha]
    exact ht
  exact (compile_congr (statements_congr hanswer _ (start e.config visible source) hs).1).symm

/-! ## Depth -/

theorem script?_of_crashes (h : e.Crashes path) : e.script? path = none := by
  unfold Environment.script?
  rcases h with h | h
  · rw [h]
  · rw [h]
    split
    · rfl
    · rfl

theorem resolve_unscripted (h : path ∈ s.resolving ∨ e.script? path = none) (d d' : Nat) :
    resolve e d path s = resolve e d' path s := by
  unfold resolve
  split
  · rfl
  · rename_i hp
    have hs := h.resolve_left (by simpa using hp)
    unfold Environment.script? at hs
    cases hu : search path (Library.provider :: e.units) with
    | crashed => rfl
    | found u => rfl
    | missing unitsFailed =>
      cases hsc : search path e.scripts with
      | crashed => rfl
      | missing scriptsFailed => rfl
      | found source => simp [hu, hsc] at hs

theorem resolve_script (hp : path ∉ s.resolving) (hs : e.script? path = some source) :
    ∃ c t, compile e.config (Session.imports e depth) {} source (s.enter path) = (c, t)
      ∧ resolve e (depth + 1) path s
        = (.resolved (.compiled c) (scriptReports path c), t.leave path) := by
  have hres := resolve_resolved e (depth + 1) path s
  generalize resolve e (depth + 1) path s = result at hres ⊢
  cases hres with
  | cycle h => exact absurd h hp
  | crashed _ hc => simp [script?_of_crashes hc] at hs
  | provided _ hn _ => simp [hn] at hs
  | missing _ hn _ => simp [hn] at hs
  | @script _ source' c t _ hs' hc =>
    rw [hs, Option.some.injEq] at hs'
    exact ⟨c, t, hs' ▸ hc, rfl⟩

theorem answerWith_congr {resolve resolve' : String → Session → PathAnswer × Session}
    (h : resolve path s = resolve' path s) :
    answerWith resolve false path s = answerWith resolve' false path s := by
  unfold answerWith
  rw [h]

theorem answerWith_cached {resolve : String → Session → PathAnswer × Session} {r : Resolution}
    (h : s.cached? path = some r) : answerWith resolve false path s = (.resolved r [], s) := by
  simp [answerWith, h]

theorem answerWith_resolved {resolve : String → Session → PathAnswer × Session} {r : Resolution}
    {rs : List Report} (hc : s.cached? path = none) (hr : resolve path s = (.resolved r rs, t)) :
    answerWith resolve false path s = (.resolved r rs, t.keep path r) := by
  simp [answerWith, hc, hr]

theorem reports_of_answer {r : Resolution} {rs : List Report} (hc : s.cached? path = none)
    (ha : answerWith (resolve e depth) false path s = (.resolved r rs, t)) :
    (path ∈ s.resolving ∧ rs = [cycleReport path (s.cycle path)])
      ∨ (path ∉ s.resolving ∧ (rs = [] ∨ rs = [unresolvable path "Error in script"]
        ∨ rs = [unresolvable path "No script corresponding to path"])) := by
  rcases answerWith_cases (resolve e depth) path s with
    ⟨r', hr', -⟩ | ⟨-, ⟨r', rs', t', hres, hans⟩ | ⟨t', -, hans⟩⟩
  · simp [hc] at hr'
  · rw [hans, Prod.mk.injEq, PathAnswer.resolved.injEq] at ha
    obtain ⟨⟨rfl, rfl⟩, -⟩ := ha
    have hresolved := resolve_resolved e depth path s
    rw [hres] at hresolved
    exact hresolved.reports
  · simp [hans] at ha

theorem compiled_nil
    (h : (s.cached? path).isSome ∨ path ∈ s.resolving ∨ e.script? path = none) :
    compiled e depth path s = [] := by
  unfold compiled
  rcases h with h | h | h
  · simp [h]
  · simp [h]
  · simp [h]

theorem compiled_script (hc : s.cached? path = none) (hp : path ∉ s.resolving)
    (hs : e.script? path = some source) :
    compiled e (depth + 1) path s =
      path :: (requests (Session.imports e depth) (source.length + 2) (start e.config {} source)
        (s.enter path)).flatMap fun (path, s) => compiled e depth path s := by
  rw [compiled]
  simp [hc, hp, hs]

theorem checked_none : OperatorsChecked none := nofun

theorem leave_enter_self (h : path ∉ s.resolving) : (s.enter path).leave path = s := by
  rw [leave, enter, List.erase_append_right _ h, List.erase_cons_head, List.append_nil]

theorem answers_unscripted (he : e.Regular) (hs : At e chain s)
    (h : (s.cached? path).isSome ∨ path ∈ s.resolving ∨ e.script? path = none) :
    Answers e depth chain path s := by
  have hnil : compiled e depth path s = [] := compiled_nil h
  cases hc : s.cached? path with
  | some r =>
    refine ⟨⟨r, [], s, answerWith_cached hc, hs.checked path r hc, hs, hnil ▸ .refl s⟩,
      fun more => ?_⟩
    rw [answerWith_cached hc, answerWith_cached hc]
  | none =>
    have h : path ∈ s.resolving ∨ e.script? path = none := h.resolve_left (by simp [hc])
    refine ⟨?_, fun more => answerWith_congr (resolve_unscripted h _ _)⟩
    have hkept {r : Resolution} {rs : List Report}
        (hres : resolve e depth path s = (.resolved r rs, s)) (hr : OperatorsChecked r.usable?) :
        ∃ r rs t, answerWith (resolve e depth) false path s = (.resolved r rs, t)
          ∧ OperatorsChecked r.usable? ∧ At e chain t ∧ Adds s (compiled e depth path s) t :=
      ⟨r, rs, s.keep path r, answerWith_resolved hc hres, hr, hs.keep hr,
        hnil ▸ (Adds.refl s).keep r⟩
    have hres := resolve_resolved e depth path s
    generalize hresult : resolve e depth path s = result at hres
    cases hres with
    | cycle _ => exact hkept hresult checked_none
    | crashed _ hcrash => exact absurd hcrash (he.not_crashes path)
    | provided hp _ hu =>
      rw [leave_enter_self hp] at hresult
      refine hkept hresult fun d hd => ?_
      exact Option.some.inj hd ▸ he.unit_checked hu
    | missing hp _ _ =>
      rw [leave_enter_self hp] at hresult
      exact hkept hresult checked_none
    | tooDeep hp hscript => simp [hp, hscript] at h
    | script hp hscript _ => simp [hp, hscript] at h

theorem answers_script (hs : At e chain s) (hc : s.cached? path = none) (hp : path ∉ s.resolving)
    (hscript : e.script? path = some source)
    (hans : ∀ other t, At e (chain ++ [path]) t → Answers e depth (chain ++ [path]) other t) :
    Answers e (depth + 1) chain path s := by
  have henter : At e (chain ++ [path]) (s.enter path) :=
    hs.enter (fun hm => hp (hs.resolving ▸ hm)) hscript
  have hempty : ({} : Definition).operators.Valid := OperatorTable.valid_empty
  obtain ⟨q, t, hrun, hq, hg, ht, hadd⟩ :=
    unit_spec hans (start_ready e.config hempty source) henter
  obtain ⟨c, t', hcomp, hres⟩ := resolve_script hp hscript
  have hc' : c = ⟨source, q.root, q.exported, q.reports⟩ ∧ t' = t := by
    rw [compile_of_ended hrun hq.complete] at hcomp
    simpa [eq_comm] using hcomp
  obtain ⟨rfl, rfl⟩ := hc'
  have hchecked : OperatorsChecked
      (Resolution.compiled ⟨source, q.root, q.exported, q.reports⟩).usable? := by
    intro d hd
    have hd' : d = q.exported := by
      simp only [Resolution.usable?, Resolution.definition?, Option.ite_none_right_eq_some,
        Option.some.injEq] at hd
      exact hd.2.symm
    exact hd' ▸ hg.exported trivial OperatorTable.valid_empty
  refine ⟨⟨_, _, _, answerWith_resolved hc hres, hchecked, (hs.leave hp ht).keep hchecked, ?_⟩,
    fun more => answerWith_congr ?_⟩
  · rw [compiled_script hc hp hscript]
    exact hadd.cons hc hp _
  · obtain ⟨c, t, hcomp', hres'⟩ := resolve_script hp hscript
    rw [unit_deeper hans henter more, hcomp] at hcomp'
    simp only [Prod.mk.injEq] at hcomp'
    rw [Nat.add_right_comm, hres', hres, hcomp'.1, hcomp'.2]

/-- Every request below a chain is answered, if the depth that is left makes up for what the chain
lacks. -/
theorem answers (he : e.Regular) (hd : e.depth ≤ chain.length + depth) (hs : At e chain s)
    (path : String) : Answers e depth chain path s := by
  induction depth generalizing chain path s with
  | zero =>
    -- The chain is as long as there are paths with scripts, so no new one is left.
    refine answers_unscripted he hs ?_
    by_contra hnew
    simp only [not_or] at hnew
    obtain ⟨-, hp, hscript⟩ := hnew
    obtain ⟨source, hscript⟩ := Option.ne_none_iff_exists'.mp hscript
    have hlen := (hs.enter (fun hm => hp (hs.resolving ▸ hm)) hscript).length_le he
    simp only [List.length_append, List.length_singleton] at hlen
    omega
  | succ depth ih =>
    by_cases hnew : (s.cached? path).isSome ∨ path ∈ s.resolving ∨ e.script? path = none
    · exact answers_unscripted he hs hnew
    · simp only [not_or, Option.not_isSome_iff_eq_none] at hnew
      obtain ⟨hc, hp, hscript⟩ := hnew
      obtain ⟨source, hscript⟩ := Option.ne_none_iff_exists'.mp hscript
      refine answers_script hs hc hp hscript fun other t ht => ih ?_ ht other
      rw [List.length_append, List.length_singleton]
      omega

/-! ## Cycles -/

/-- Why a path that is in progress cannot be resolved, with the paths that are in progress after
it. -/
def cycleReason (path : String) : List String → String
  | [] => "Self-reference"
  | next :: rest =>
    "Circular reference detected"
      ++ String.join (((path :: next :: rest).zip (next :: rest)).map fun (a, b) =>
        s!"\n  '{a}' references '{b}'")
      ++ s!"\n  and '{(next :: rest).getLast (List.cons_ne_nil next rest)}' references '{path}'"

theorem referenceLines_eq (path : String) (paths : List String) :
    referenceLines (path :: paths) = String.join (((path :: paths).zip paths).map fun (a, b) =>
      s!"\n  '{a}' references '{b}'") := by
  induction paths generalizing path with
  | nil => rfl
  | cons next rest ih =>
    rw [referenceLines, ih, List.zip_cons_cons, List.map_cons, String.join_cons]

theorem cycle_eq {before after : List String} (h : (before ++ path :: after).Nodup)
    (hs : s.resolving = before ++ path :: after) : s.cycle path = path :: after := by
  have hbefore : ∀ other ∈ before, (other != path) = true := by
    intro other ho
    have hne := (List.nodup_append.mp h).2.2 other ho path List.mem_cons_self
    simpa using hne
  rw [cycle, hs, List.dropWhile_append_of_pos hbefore]
  simp

theorem cycleReport_eq (path : String) (after : List String) :
    cycleReport path (path :: after) = unresolvable path (cycleReason path after) := by
  cases after with
  | nil =>
    unfold cycleReport cycleReason
    rfl
  | cons next rest =>
    unfold cycleReport cycleReason
    rw [referenceLines_eq]

end Session

/-! ## Operations and moments -/

open Session

theorem Environment.perform_spec (he : e.Regular) (hs : At e [] s) {op : Operation}
    (ho : op.Checked) :
    At e [] (e.perform op s) ∧ (op ≠ .clear → Adds s (e.compiledBy op s) (e.perform op s)) := by
  have hans (path : String) (s : Session) (hs : At e [] s) : Answers e e.depth [] path s :=
    answers he (Nat.le_add_left _ _) hs path
  cases op with
  | get path =>
    obtain ⟨r, rs, t, ha, -, ht, hadd⟩ := (hans path s hs).found
    have hget : e.perform (.get path) s = t := by rw [perform, get, ha]
    exact hget ▸ ⟨ht, fun _ => hadd⟩
  | read visible source =>
    obtain ⟨q, t, hrun, hq, -, ht, hadd⟩ := unit_spec hans (start_ready e.config ho source) hs
    have hread : e.perform (.read visible source) s = t := by
      rw [perform, read_eq, compile_of_ended hrun hq.complete]
    exact hread ▸ ⟨ht, fun _ => hadd⟩
  | clear => exact ⟨⟨hs.resolving, hs.nodup, hs.scripts, nofun⟩, fun h => absurd rfl h⟩

theorem Environment.after_at (he : e.Regular) {ops : List Operation} (hs : At e [] s)
    (ho : ∀ op ∈ ops, op.Checked) : At e [] (e.after ops s) := by
  induction ops generalizing s with
  | nil => exact hs
  | cons op ops ih =>
    refine ih (perform_spec he hs (ho op List.mem_cons_self)).1 fun op' hop => ?_
    exact ho op' (List.mem_cons_of_mem op hop)

theorem Environment.after_adds (he : e.Regular) {ops : List Operation} (hs : At e [] s)
    (ho : ∀ op ∈ ops, op.Checked ∧ op ≠ .clear) :
    Adds s (e.compiledAlong ops s) (e.after ops s) := by
  induction ops generalizing s with
  | nil => exact .refl s
  | cons op ops ih =>
    obtain ⟨hchecked, hclear⟩ := ho op List.mem_cons_self
    obtain ⟨hat, hadd⟩ := perform_spec he hs hchecked
    exact (hadd hclear).trans (ih hat fun op' hop => ho op' (List.mem_cons_of_mem op hop))

theorem at_empty : At e [] {} := ⟨rfl, List.nodup_nil, by simp, nofun⟩

/-- What holds of a session and a script in it at every moment. -/
structure Moment.Holds (e : Environment) (depth : Nat) (chain : List String) (source : Source)
    (p : ParserState) (s : Session) : Prop where
  at_chain : At e chain s
  last : ∀ path, chain.getLast? = some path → e.script? path = some source
  ready : Ready source.chars p
  depth_eq : chain.length + depth = e.depth

theorem Moment.holds (he : e.Regular) {source : Source} {p : ParserState}
    (h : Moment e depth chain source p s) : Moment.Holds e depth chain source p s := by
  induction h with
  | read ho hv =>
    exact ⟨e.after_at he at_empty ho, nofun, start_ready e.config hv _, Nat.zero_add _⟩
  | @get ops depth path source s ho hs hd hc hp hf =>
    have hat : At e [] s := hs ▸ e.after_at he at_empty ho
    refine ⟨hat.enter (by simp) hf, ?_, start_ready e.config OperatorTable.valid_empty source, ?_⟩
    · intro other ho
      exact Option.some.inj ho ▸ hf
    · rw [hd, List.length_singleton, Nat.add_comm]
  | @nested depth chain outer source t s path h hr hc hp hf ih =>
    refine ⟨ih.at_chain.enter (fun hm => hp (ih.at_chain.resolving ▸ hm)) hf, ?_,
      start_ready e.config OperatorTable.valid_empty source, ?_⟩
    · intro other ho
      rw [List.getLast?_concat] at ho
      exact Option.some.inj ho ▸ hf
    · rw [List.length_append, List.length_singleton, ← ih.depth_eq]
      omega
  | @turn depth chain source t u s s' h ht ih =>
    have hans (path : String) (s : Session) (hs : At e chain s) : Answers e depth chain path s :=
      answers he ih.depth_eq.ge hs path
    obtain ⟨hready, hat⟩ := turn_goesOn (answersIn hans) ih.ready ih.at_chain ht
    exact ⟨hat, ih.last, hready, ih.depth_eq⟩

theorem Asked.at_chain (he : e.Regular) (h : Asked e depth chain path s) :
    At e chain s ∧ chain.length + depth = e.depth := by
  cases h with
  | get ho path => exact ⟨e.after_at he at_empty ho, Nat.zero_add _⟩
  | nested h _ => exact ⟨(h.holds he).at_chain, (h.holds he).depth_eq⟩

/-- At every moment the paths in progress are, without duplicates, the chain of imports that leads
to the script being read, and that script is read to its end. Every request is answered, whatever
more depth is allowed, and leaves the chain as it is. A path on the chain that has no result yet is
reported as a cycle, which is the part of the chain from that path on; no other path is. As long as
the session is not cleared, no script is compiled twice. -/
theorem imports_depth_first {e : Environment} (he : e.Regular) :
    (∀ depth chain source p s, Moment e depth chain source p s →
      s.resolving = chain ∧ chain.Nodup
        ∧ (∀ path, chain.getLast? = some path → e.script? path = some source)
        ∧ ∃ q t, statements (imports e depth) (source.length + 2) p s = (true, q, t)
          ∧ q.exhausted = false ∧ t.resolving = chain)
      ∧ (∀ depth chain path s, Asked e depth chain path s →
        s.resolving = chain ∧ ∃ r rs t,
          (∀ more, answerWith (resolve e (depth + more)) false path s = (.resolved r rs, t))
            ∧ t.resolving = chain
            ∧ (∀ r', s.cached? path = some r' → r = r' ∧ rs = [] ∧ t = s)
            ∧ (s.cached? path = none → ∀ before after, chain = before ++ path :: after →
              rs = [unresolvable path (cycleReason path after)])
            ∧ (path ∉ chain → rs = [] ∨ rs = [unresolvable path "Error in script"]
              ∨ rs = [unresolvable path "No script corresponding to path"]))
      ∧ ∀ ops more : List Operation, (∀ op ∈ ops ++ more, op.Checked) →
        (∀ op ∈ more, op ≠ .clear) → (e.compiledAlong more (e.after ops {})).Nodup := by
  refine ⟨fun depth chain source p s h => ?_, fun depth chain path s h => ?_,
    fun ops more ho hclear => ?_⟩
  · obtain ⟨hat, hlast, hready, hd⟩ := h.holds he
    have hans (path : String) (s : Session) (hs : At e chain s) : Answers e depth chain path s :=
      answers he hd.ge hs path
    obtain ⟨q, t, hrun, hq, -, ht, -⟩ := unit_spec hans hready hat
    exact ⟨hat.resolving, hat.nodup, hlast, q, t, hrun, hq.complete, ht.resolving⟩
  · obtain ⟨hat, hd⟩ := h.at_chain he
    have hans := answers he hd.ge hat path
    obtain ⟨r, rs, t, ha, -, ht, -⟩ := hans.found
    refine ⟨hat.resolving, r, rs, t, fun more => (hans.deeper more).trans ha, ht.resolving,
      fun r' hr' => ?_, fun hc before after hsplit => ?_, fun hnew => ?_⟩
    · rw [answerWith_cached hr'] at ha
      simpa [eq_comm, and_assoc] using ha
    · rcases reports_of_answer hc ha with ⟨-, hrs⟩ | ⟨hnew, -⟩
      · rw [hrs, cycle_eq (hsplit ▸ hat.nodup) (hat.resolving.trans hsplit), cycleReport_eq]
      · exact absurd (by simp [hat.resolving, hsplit]) hnew
    · cases hc : s.cached? path with
      | some r' =>
        rw [answerWith_cached hc] at ha
        simp only [Prod.mk.injEq, PathAnswer.resolved.injEq] at ha
        exact .inl ha.1.2.symm
      | none =>
        rcases reports_of_answer hc ha with ⟨hmem, -⟩ | ⟨-, hrs⟩
        · exact absurd (hat.resolving ▸ hmem) hnew
        · exact hrs
  · have hat : At e [] (e.after ops {}) :=
      e.after_at he at_empty fun op hop => ho op (List.mem_append_left more hop)
    exact (e.after_adds he hat fun op hop =>
      ⟨ho op (List.mem_append_right ops hop), hclear op hop⟩).nodup

/-- Two scripts that import each other: both are compiled once, whichever is asked for first, and
the second one is told of the circle when it asks for the first one again. -/
theorem imports_depth_first_circle :
    let e : Environment := { scripts := [Provider.ofTexts [("a", "use b"), ("b", "use a")]] }
    let ops : List Operation := [.get "a", .read {} (Source.ofText "use b")]
    e.Regular ∧ (e.compiledAlong ops {}).Nodup ∧ e.compiledAlong ops {} = ["a", "b"]
      ∧ ∃ depth s r t, Asked e depth ["a", "b"] "a" s
        ∧ answerWith (resolve e depth) false "a" s = (.resolved r [Report.error
          ("Cannot resolve definitions from path 'a': Circular reference detected\n"
            ++ "  'a' references 'b'\n  and 'b' references 'a'")], t) := by
  intro e ops
  have he : e.Regular := by
    refine ⟨by simp [e], ?_, by simp [e], ?_⟩
    · intro p hp
      rw [List.mem_singleton.mp hp]
      exact Provider.ofTexts_supply _
    · intro p hp
      rw [List.mem_singleton.mp hp]
      exact Provider.finite_ofEntries _
  have hnone : ∀ op ∈ ([] : List Operation), op.Checked := nofun
  let inside : Session := Session.enter {} "a"
  have hfirst : Moment e 1 ["a"] (Source.ofText "use b")
      (start e.config {} (Source.ofText "use b")) inside :=
    .get hnone rfl rfl rfl List.not_mem_nil rfl
  have hsecond : Moment e 0 ["a", "b"] (Source.ofText "use a")
      (start e.config {} (Source.ofText "use a")) (inside.enter "b") :=
    .nested hfirst (by decide +kernel) rfl (by decide +kernel) rfl
  have hasked : Asked e 0 ["a", "b"] "a" (inside.enter "b") :=
    .nested hsecond (by decide +kernel)
  obtain ⟨-, hanswer, honce⟩ := imports_depth_first he
  obtain ⟨-, r, rs, t, hans, -, -, hcycle, -⟩ := hanswer 0 ["a", "b"] "a" _ hasked
  have hrs : rs = [unresolvable "a" (cycleReason "a" ["b"])] := hcycle rfl [] ["b"] rfl
  refine ⟨he, honce [] ops ?_ ?_, by decide +kernel, 0, _, r, t, hasked, ?_⟩
  · simp [ops, Operation.Checked, OperatorTable.Valid]
  · simp [ops]
  · rw [hans 0, hrs]
    rfl

end ConfigScript
