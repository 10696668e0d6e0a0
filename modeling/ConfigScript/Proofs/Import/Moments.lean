import ConfigScript.Proofs.Import.Resolved
import ConfigScript.Proofs.Parser.Requests

/-! # Moments of a session

What goes on in a session while its operations run: which scripts are being compiled, each because
the one before it imports it, and which paths are asked for. The paths whose scripts an operation
compiles are listed in the order in which that begins. -/

namespace ConfigScript

open ConfigScript.Parser

/-! ## Environments -/

/-- A provider holds scripts for no more paths than its size says. -/
def Provider.Finite (p : Provider Source) : Prop :=
  ∃ paths : List String, paths.length ≤ p.size
    ∧ ∀ path source, p.supply? path = some (.item source) → path ∈ paths

/-- The providers do not break down, their units have checked operators, and each of them holds
scripts for no more paths than its size says. -/
structure Environment.Regular (e : Environment) : Prop where
  units : ∀ p ∈ e.units, ∀ path, p.supply? path ≠ some .crash
  scripts : ∀ p ∈ e.scripts, ∀ path, p.supply? path ≠ some .crash
  checked : ∀ p ∈ e.units, ∀ path u, p.supply? path = some (.item u) → u.definition.operators.Valid
  finite : ∀ p ∈ e.scripts, p.Finite

theorem Provider.finite_ofEntries (entries : List (String × Supply Source)) :
    (Provider.ofEntries entries).Finite := by
  refine ⟨entries.map Prod.fst, (List.length_map _).le, fun path source h => ?_⟩
  obtain ⟨before, after, hsplit, -⟩ := List.lookup_eq_some_iff.mp h
  simp [hsplit]

theorem Provider.ofTexts_supply (texts : List (String × String)) (path : String) :
    (Provider.ofTexts texts).supply? path ≠ some .crash := by
  intro h
  simp only [ofTexts, ofItems, ofEntries, List.map_map] at h
  obtain ⟨before, after, hsplit, -⟩ := List.lookup_eq_some_iff.mp h
  have hmem : (path, Supply.crash) ∈ texts.map fun x : String × String =>
      (x.1, Supply.item (Source.ofText x.2)) := by
    refine hsplit ▸ ?_
    simp
  obtain ⟨x, -, hx⟩ := List.mem_map.mp hmem
  simp at hx

/-- Scripts stand for no more paths than imports can be nested. -/
def Environment.Bounded (e : Environment) : Prop :=
  ∃ paths : List String, paths.length ≤ e.depth
    ∧ ∀ path source, e.script? path = some source → path ∈ paths

theorem search_crashed {α : Type} {path : String} {ps : List (Provider α)}
    (h : search path ps = .crashed) : ∃ p ∈ ps, p.supply? path = some .crash := by
  induction ps with
  | nil => simp [search] at h
  | cons p ps ih =>
    have hlater (hs : search path ps = .crashed) : ∃ q ∈ p :: ps, q.supply? path = some .crash := by
      obtain ⟨q, hq, hc⟩ := ih hs
      exact ⟨q, List.mem_cons_of_mem p hq, hc⟩
    rw [search] at h
    split at h
    · simp at h
    · exact ⟨p, List.mem_cons_self, ‹_›⟩
    · exact hlater h
    · split at h
      · simp at h
      · exact hlater h

theorem search_found {α : Type} {path : String} {ps : List (Provider α)} {a : α}
    (h : search path ps = .found a) : ∃ p ∈ ps, p.supply? path = some (.item a) := by
  induction ps with
  | nil => simp [search] at h
  | cons p ps ih =>
    have hlater (hs : search path ps = .found a) :
        ∃ q ∈ p :: ps, q.supply? path = some (.item a) := by
      obtain ⟨q, hq, hc⟩ := ih hs
      exact ⟨q, List.mem_cons_of_mem p hq, hc⟩
    rw [search] at h
    split at h
    · rename_i hp
      simp only [Search.found.injEq] at h
      exact ⟨p, List.mem_cons_self, h ▸ hp⟩
    · simp at h
    · exact hlater h
    · split at h
      · simp at h
      · exact hlater h

namespace Library

theorem tableOf_valid {os : List Operator} (h : ∀ o ∈ os, o.Valid) : (tableOf os).Valid := by
  have hfold (t : OperatorTable) (ht : t.Valid) : (os.foldl (fun t o => (t.add o).1) t).Valid := by
    induction os generalizing t with
    | nil => exact ht
    | cons o os ih =>
      exact ih (fun p hp => h p (List.mem_cons_of_mem o hp)) _ (ht.add (h o List.mem_cons_self))
  exact hfold {} OperatorTable.valid_empty

theorem addMacros_operators (d : Definition) (ms : List Macro) :
    (d.addMacros ms).operators = d.operators := by
  unfold Definition.addMacros
  induction ms generalizing d with
  | nil => rfl
  | cons m ms ih => exact ih _

theorem definitions_valid {path : String} {d : Definition} (h : (path, d) ∈ definitions) :
    d.operators.Valid := by
  have hstock : operatorsUnit.operators.Valid := tableOf_valid fun o ho =>
    ⟨some o.priority, by revert o; decide +kernel⟩
  have haccessor : (tableOf [accessorSign]).Valid := tableOf_valid fun o ho =>
    ⟨some o.priority, by revert o; decide +kernel⟩
  have hformat : (tableOf [formatSign]).Valid := tableOf_valid fun o ho =>
    ⟨some o.priority, by revert o; decide +kernel⟩
  simp only [definitions, List.mem_cons, Prod.mk.injEq, List.not_mem_nil, or_false] at h
  rcases h with ⟨-, rfl⟩ | ⟨-, rfl⟩ | ⟨-, rfl⟩ | ⟨-, rfl⟩ | ⟨-, rfl⟩ | ⟨-, rfl⟩
  · exact hstock
  · exact hstock
  · rw [evalUnit, addMacros_operators]
    exact hstock
  · rw [Collection.unit, addMacros_operators]
    exact haccessor
  · rw [Collection.unit, addMacros_operators]
    exact haccessor
  · rw [formatUnit, addMacros_operators]
    exact hformat

theorem provider_supply {path : String} {supply : Supply ImportedUnit}
    (h : provider.supply? path = some supply) :
    ∃ d, (path, d) ∈ definitions ∧ supply = .item { definition := d } := by
  simp only [provider, Provider.ofItems, Provider.ofEntries, List.map_map,
    List.lookup_eq_some_iff] at h
  obtain ⟨before, after, hsplit, -⟩ := h
  have hmem : (path, supply) ∈ definitions.map fun x : String × Definition =>
      (x.1, Supply.item { definition := x.2 }) := by
    refine hsplit ▸ ?_
    simp
  obtain ⟨x, hx, hxe⟩ := List.mem_map.mp hmem
  simp only [Prod.mk.injEq] at hxe
  exact ⟨x.2, hxe.1 ▸ hx, hxe.2.symm⟩

end Library

namespace Environment

variable {e : Environment}

theorem not_crashes (hu : ∀ p ∈ e.units, ∀ path, p.supply? path ≠ some .crash)
    (hs : ∀ p ∈ e.scripts, ∀ path, p.supply? path ≠ some .crash) (path : String) :
    ¬e.Crashes path := by
  rintro (h | h)
  · obtain ⟨p, hp, hc⟩ := search_crashed h
    rcases List.mem_cons.mp hp with rfl | hp
    · obtain ⟨d, -, hd⟩ := Library.provider_supply hc
      simp at hd
    · exact hu p hp path hc
  · obtain ⟨p, hp, hc⟩ := search_crashed h
    exact hs p hp path hc

theorem Regular.not_crashes (he : e.Regular) (path : String) : ¬e.Crashes path :=
  Environment.not_crashes he.units he.scripts path

theorem Regular.unit_checked (he : e.Regular) {path : String} {u : ImportedUnit}
    (h : search path (Library.provider :: e.units) = .found u) : u.definition.operators.Valid := by
  obtain ⟨p, hp, hi⟩ := search_found h
  rcases List.mem_cons.mp hp with rfl | hp
  · obtain ⟨d, hd, hu⟩ := Library.provider_supply hi
    simp only [Supply.item.injEq] at hu
    exact hu ▸ Library.definitions_valid hd
  · exact he.checked p hp path u hi

theorem script?_found {path : String} {source : Source} (h : e.script? path = some source) :
    search path e.scripts = .found source := by
  unfold script? at h
  split at h
  · split at h
    · simpa [‹search path e.scripts = _›] using h
    · simp at h
  · simp at h

theorem bounded_of_finite (h : ∀ p ∈ e.scripts, p.Finite) : e.Bounded := by
  have hall (ps : List (Provider Source)) (n : Nat) (h : ∀ p ∈ ps, p.Finite) :
      ∃ paths : List String, n + paths.length ≤ ps.foldl (fun n p => n + p.size) n
        ∧ ∀ p ∈ ps, ∀ path source, p.supply? path = some (.item source) → path ∈ paths := by
    induction ps generalizing n with
    | nil => exact ⟨[], Nat.le_refl n, by simp⟩
    | cons p ps ih =>
      obtain ⟨paths, hlen, hmem⟩ := h p List.mem_cons_self
      obtain ⟨more, hlen', hmem'⟩ := ih (n + p.size) fun q hq => h q (List.mem_cons_of_mem p hq)
      refine ⟨paths ++ more, ?_, fun q hq path source hs => ?_⟩
      · rw [List.foldl_cons, List.length_append]
        omega
      · rcases List.mem_cons.mp hq with rfl | hq
        · exact List.mem_append_left more (hmem path source hs)
        · exact List.mem_append_right paths (hmem' q hq path source hs)
  obtain ⟨paths, hlen, hmem⟩ := hall e.scripts 0 h
  refine ⟨paths, by rw [depth]; omega, fun path source h => ?_⟩
  obtain ⟨p, hp, hi⟩ := search_found (script?_found h)
  exact hmem p hp path source hi

theorem Regular.bounded (he : e.Regular) : e.Bounded := bounded_of_finite he.finite

end Environment

/-! ## Operations -/

/-- What a session is used for. -/
inductive Operation
  | get (path : String)
  | read (visible : Definition) (source : Source)
  | clear

/-- The operators that are visible from the start are checked. -/
def Operation.Checked : Operation → Prop
  | read visible _ => visible.operators.Valid
  | _ => True

namespace Session

/-- The paths whose scripts are compiled to answer a request. -/
def compiled (e : Environment) : Nat → String → Session → List String
  | depth, path, s =>
    if (s.cached? path).isSome || s.resolving.contains path then []
    else
      match e.script? path with
      | none => []
      | some source =>
        match depth with
        | 0 => []
        | depth + 1 =>
          path :: (requests (imports e depth) (source.length + 2) (start e.config {} source)
            (s.enter path)).flatMap fun (path, s) => compiled e depth path s

end Session

namespace Environment

def perform (e : Environment) : Operation → Session → Session
  | .get path, s => (e.get path s).2
  | .read visible source, s => (e.read visible source s).2
  | .clear, s => s.clear

/-- The session after some operations. -/
def after (e : Environment) (ops : List Operation) (s : Session) : Session :=
  ops.foldl (fun s op => e.perform op s) s

/-- The paths whose scripts an operation compiles. -/
def compiledBy (e : Environment) : Operation → Session → List String
  | .get path, s => Session.compiled e e.depth path s
  | .read visible source, s =>
    (requests (Session.imports e e.depth) (source.length + 2) (start e.config visible source)
      s).flatMap fun (path, s) => Session.compiled e e.depth path s
  | .clear, _ => []

/-- The paths whose scripts some operations compile. -/
def compiledAlong (e : Environment) : List Operation → Session → List String
  | [], _ => []
  | op :: ops, s => e.compiledBy op s ++ e.compiledAlong ops (e.perform op s)

end Environment

/-- A moment between two statements of a script: the bound on imports below it, the chain of paths
in progress, the source, the state of reading it and the session. The script was handed to the
session, or it stands for the last path of the chain, which was asked for by the session's user or
by the script of the path before. -/
inductive Moment (e : Environment) :
    Nat → List String → Source → ParserState → Session → Prop
  | read {ops : List Operation} {visible : Definition} {source : Source}
    (ho : ∀ op ∈ ops, op.Checked) (hv : visible.operators.Valid) :
    Moment e e.depth [] source (start e.config visible source) (e.after ops {})
  | get {ops : List Operation} {depth : Nat} {path : String} {source : Source} {s : Session}
    (ho : ∀ op ∈ ops, op.Checked) (hs : s = e.after ops {}) (hd : e.depth = depth + 1)
    (hc : s.cached? path = none) (hp : path ∉ s.resolving) (hf : e.script? path = some source) :
    Moment e depth [path] source (start e.config {} source) (s.enter path)
  | nested {depth : Nat} {chain : List String} {outer source : Source} {t : ParserState}
    {s : Session} {path : String} (h : Moment e (depth + 1) chain outer t s)
    (hr : request? t = some path) (hc : s.cached? path = none) (hp : path ∉ s.resolving)
    (hf : e.script? path = some source) :
    Moment e depth (chain ++ [path]) source (start e.config {} source) (s.enter path)
  | turn {depth : Nat} {chain : List String} {source : Source} {t u : ParserState}
    {s s' : Session} (h : Moment e depth chain source t s)
    (ht : turn (Session.imports e depth) t s = (.goesOn, u, s')) : Moment e depth chain source u s'

/-- A path is asked for, by the session's user or by the script of the last path of the chain. -/
inductive Asked (e : Environment) : Nat → List String → String → Session → Prop
  | get {ops : List Operation} (ho : ∀ op ∈ ops, op.Checked) (path : String) :
    Asked e e.depth [] path (e.after ops {})
  | nested {depth : Nat} {chain : List String} {source : Source} {t : ParserState} {s : Session}
    {path : String} (h : Moment e depth chain source t s) (hr : request? t = some path) :
    Asked e depth chain path s

end ConfigScript
