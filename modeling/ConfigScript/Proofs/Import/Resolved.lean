import ConfigScript.Import.Session

/-! # How resolving a path ends

A path is in progress, or a provider answers it, or none does, or a script is compiled for it. The
cases below say with which answer, and in which session, each of them ends. -/

namespace ConfigScript

/-- What a script gets to import. -/
def ImportAnswer.definition? : ImportAnswer → Option Definition
  | answered found _ => found
  | crashed => none

/-- The script that stands for a path, if no unit does. -/
def Environment.script? (e : Environment) (path : String) : Option Source :=
  match search path (Library.provider :: e.units) with
  | .missing _ =>
    match search path e.scripts with
    | .found source => some source
    | _ => none
  | _ => none

/-- Whether a provider breaks down when it is asked for a path. -/
def Environment.Crashes (e : Environment) (path : String) : Prop :=
  search path (Library.provider :: e.units) = .crashed ∨ search path e.scripts = .crashed

namespace Session

/-- Answers the imports of a script, below which they may nest as deep as the given bound. -/
def imports (e : Environment) (depth : Nat) : Resolver Session := fun path s =>
  ((answerWith (resolve e depth) false path s).1.forImport,
    (answerWith (resolve e depth) false path s).2)

theorem read_eq (e : Environment) (visible : Definition) (source : Source) (s : Session) :
    e.read visible source s = compile e.config (imports e e.depth) visible source s := rfl

/-- For whoever imports a script with errors, that is the report. -/
def scriptReports (path : String) (c : Compiled) : List Report :=
  if c.isSuccess then [] else [unresolvable path "Error in script"]

/-- The ways in which resolving a path ends. -/
inductive Resolved (e : Environment) (path : String) (s : Session) :
    Nat → PathAnswer × Session → Prop
  | cycle {depth : Nat} (h : path ∈ s.resolving) :
    Resolved e path s depth (.resolved .failure [cycleReport path (s.cycle path)], s)
  | crashed {depth : Nat} (h : path ∉ s.resolving) (hc : e.Crashes path) :
    Resolved e path s depth (.crashed, s.enter path)
  | provided {depth : Nat} {u : ImportedUnit} (h : path ∉ s.resolving)
    (hs : e.script? path = none) (hu : search path (Library.provider :: e.units) = .found u) :
    Resolved e path s depth (.resolved (.provided u) [], (s.enter path).leave path)
  | missing {depth : Nat} {reason : String} (h : path ∉ s.resolving)
    (hs : e.script? path = none)
    (hr : reason = "Error in script" ∨ reason = "No script corresponding to path") :
    Resolved e path s depth
      (.resolved .failure [unresolvable path reason], (s.enter path).leave path)
  | tooDeep {source : Source} (h : path ∉ s.resolving) (hs : e.script? path = some source) :
    Resolved e path s 0 (.crashed, s.enter path)
  | script {depth : Nat} {source : Source} {c : Compiled} {t : Session} (h : path ∉ s.resolving)
    (hs : e.script? path = some source)
    (hc : compile e.config (imports e depth) {} source (s.enter path) = (c, t)) :
    Resolved e path s (depth + 1)
      (.resolved (.compiled c) (scriptReports path c), t.leave path)

theorem resolve_resolved (e : Environment) (depth : Nat) (path : String) (s : Session) :
    Resolved e path s depth (resolve e depth path s) := by
  unfold resolve
  split
  · rename_i h
    exact .cycle (by simpa using h)
  · rename_i h
    have h : path ∉ s.resolving := by simpa using h
    cases hu : search path (Library.provider :: e.units) with
    | crashed => exact .crashed h (.inl hu)
    | found u => exact .provided h (by simp only [Environment.script?, hu]) hu
    | missing unitsFailed =>
      cases hs : search path e.scripts with
      | crashed => exact .crashed h (.inr hs)
      | missing scriptsFailed =>
        refine .missing h (by simp only [Environment.script?, hu, hs]) ?_
        split
        · exact .inl rfl
        · exact .inr rfl
      | found source =>
        have hscript : e.script? path = some source := by simp only [Environment.script?, hu, hs]
        cases depth with
        | zero => exact .tooDeep h hscript
        | succ depth => exact .script h hscript rfl

theorem Resolved.reports {e : Environment} {path : String} {s t : Session} {depth : Nat}
    {r : Resolution} {rs : List Report} (h : Resolved e path s depth (.resolved r rs, t)) :
    (path ∈ s.resolving ∧ rs = [cycleReport path (s.cycle path)])
      ∨ (path ∉ s.resolving ∧ (rs = [] ∨ rs = [unresolvable path "Error in script"]
        ∨ rs = [unresolvable path "No script corresponding to path"])) := by
  cases h with
  | cycle h => exact .inl ⟨h, rfl⟩
  | provided h _ _ => exact .inr ⟨h, .inl rfl⟩
  | missing h _ hr =>
    rcases hr with rfl | rfl
    · exact .inr ⟨h, .inr (.inl rfl)⟩
    · exact .inr ⟨h, .inr (.inr rfl)⟩
  | script h _ _ =>
    unfold scriptReports
    split
    · exact .inr ⟨h, .inl rfl⟩
    · exact .inr ⟨h, .inr (.inl rfl)⟩

theorem cached?_keep (s : Session) (path : String) (r : Resolution) (other : String) :
    (s.keep path r).cached? other = if other = path then some r else s.cached? other := by
  simp only [cached?, keep, List.lookup_cons]
  by_cases h : other = path
  · simp [h]
  · simp [h, beq_eq_false_iff_ne.mpr h]

theorem mem_enter {s : Session} {path other : String} :
    other ∈ (s.enter path).resolving ↔ other ∈ s.resolving ∨ other = path := by
  simp [enter]

theorem leave_enter {s t : Session} {path : String} (h : path ∉ s.resolving)
    (ht : t.resolving = (s.enter path).resolving) : (t.leave path).resolving = s.resolving := by
  simp only [leave, ht, enter, List.erase_append_right _ h, List.erase_cons_head, List.append_nil]

/-- The ways in which a request for a path ends, for a path that is to be resolved again or not. -/
inductive Answered (resolve : String → Session → PathAnswer × Session) (again : Bool)
    (path : String) (s : Session) : PathAnswer × Session → Prop
  | cached {r : Resolution} (ha : again = false) (hc : s.cached? path = some r) :
    Answered resolve again path s (.resolved r [], s)
  | kept {r : Resolution} {rs : List Report} {t : Session}
    (hc : again = false → s.cached? path = none) (hr : resolve path s = (.resolved r rs, t)) :
    Answered resolve again path s (.resolved r rs, t.keep path r)
  | crashed {t : Session} (hc : again = false → s.cached? path = none)
    (hr : resolve path s = (.crashed, t)) : Answered resolve again path s (.crashed, t)

theorem answerWith_answered (resolve : String → Session → PathAnswer × Session) (again : Bool)
    (path : String) (s : Session) :
    Answered resolve again path s (answerWith resolve again path s) := by
  unfold answerWith
  split
  · rename_i r hr
    cases again with
    | true => simp at hr
    | false => exact .cached rfl hr
  · rename_i hn
    have hc : again = false → s.cached? path = none := by
      rintro rfl
      exact hn
    cases hr : resolve path s with
    | mk a t =>
      cases a with
      | resolved r rs => exact .kept hc hr
      | crashed => exact .crashed hc hr

theorem answerWith_cases (resolve : String → Session → PathAnswer × Session) (path : String)
    (s : Session) :
    (∃ r, s.cached? path = some r ∧ answerWith resolve false path s = (.resolved r [], s))
      ∨ s.cached? path = none
        ∧ ((∃ r rs t, resolve path s = (.resolved r rs, t)
            ∧ answerWith resolve false path s = (.resolved r rs, t.keep path r))
          ∨ ∃ t, resolve path s = (.crashed, t)
            ∧ answerWith resolve false path s = (.crashed, t)) := by
  have h := answerWith_answered resolve false path s
  generalize answerWith resolve false path s = result at h
  cases h with
  | cached _ hc => exact .inl ⟨_, hc, rfl⟩
  | kept hc hr => exact .inr ⟨hc rfl, .inl ⟨_, _, _, hr, rfl⟩⟩
  | crashed hc hr => exact .inr ⟨hc rfl, .inr ⟨_, hr, rfl⟩⟩

end Session

end ConfigScript
