import ConfigScript.Proofs.Import.Moments
import Mathlib.Data.List.Nodup
import Mathlib.Data.List.Perm.Subperm

/-! # Sessions over time

A session is used for one operation after another, while what the providers hold may change in
between. An operation adds to the paths in progress only those at which a provider breaks down, and
takes none away. -/

namespace ConfigScript

open ConfigScript.Parser

/-! ## Operations -/

/-- What a session is used for, with results that may be replaced. -/
inductive Use
  | get (path : String)
  | reread (path : String)
  | read (visible : Definition) (source : Source)
  | clear

def Environment.serve (e : Environment) : Use → Session → Session
  | .get path, s => (e.get path s).2
  | .reread path, s => (e.reread path s).2
  | .read visible source, s => (e.read visible source s).2
  | .clear, s => s.clear

/-- The session after some operations, each with what the providers hold at its time. -/
def Session.along (h : List (Environment × Use)) : Session :=
  h.foldl (fun s (e, use) => e.serve use s) {}

/-- A moment between two statements of a script while an operation runs: the bound on imports below
it, the chain of paths whose scripts are being read, the source, the state of reading it and the
session. -/
inductive Underway (e : Environment) (use : Use) (before : Session) :
    Nat → List String → Source → ParserState → Session → Prop
  | read {visible : Definition} {source : Source} (hu : use = .read visible source) :
    Underway e use before e.depth [] source (start e.config visible source) before
  | asked {depth : Nat} {path : String} {source : Source}
    (hu : use = .get path ∧ before.cached? path = none ∨ use = .reread path)
    (hd : e.depth = depth + 1) (hp : path ∉ before.resolving) (hf : e.script? path = some source) :
    Underway e use before depth [path] source (start e.config {} source) (before.enter path)
  | nested {depth : Nat} {chain : List String} {outer source : Source} {t : ParserState}
    {s : Session} {path : String} (h : Underway e use before (depth + 1) chain outer t s)
    (hr : request? t = some path) (hc : s.cached? path = none) (hp : path ∉ s.resolving)
    (hf : e.script? path = some source) :
    Underway e use before depth (chain ++ [path]) source (start e.config {} source) (s.enter path)
  | turn {depth : Nat} {chain : List String} {source : Source} {t u : ParserState}
    {s s' : Session} (h : Underway e use before depth chain source t s)
    (ht : turn (Session.imports e depth) t s = (.goesOn, u, s')) :
    Underway e use before depth chain source u s'

/-- A path at which imports break down: a provider does, or scripts stand for more paths than
imports can be nested. -/
def Environment.Loses (e : Environment) (path : String) : Prop := e.Crashes path ∨ ¬e.Bounded

namespace Session

variable {e : Environment} {use : Use} {depth : Nat} {chain lost more : List String}
  {path : String} {s t u : Session} {source : Source} {loses : String → Prop}

/-! ## Paths that are left in progress -/

/-- The second session has the paths of the first one in progress, and behind them some others, of
the kind that get lost. -/
structure Strands (loses : String → Prop) (s t : Session) (lost : List String) : Prop where
  resolving : t.resolving = s.resolving ++ lost
  nodup : lost.Nodup
  fresh : ∀ p ∈ lost, p ∉ s.resolving
  kind : ∀ p ∈ lost, loses p

theorem Strands.of_eq (h : t.resolving = s.resolving) : Strands loses s t [] :=
  ⟨by rw [h, List.append_nil], List.nodup_nil, by simp, by simp⟩

theorem Strands.mono {loses' : String → Prop} (h : Strands loses s t lost)
    (hl : ∀ p, loses p → loses' p) : Strands loses' s t lost :=
  ⟨h.resolving, h.nodup, h.fresh, fun p hp => hl p (h.kind p hp)⟩

theorem Strands.trans (h : Strands loses s t lost) (g : Strands loses t u more) :
    Strands loses s u (lost ++ more) := by
  have hmore : ∀ p ∈ more, p ∉ s.resolving ∧ p ∉ lost := by
    intro p hp
    have hnew := g.fresh p hp
    rw [h.resolving, List.mem_append, not_or] at hnew
    exact hnew
  refine ⟨by rw [g.resolving, h.resolving, List.append_assoc], ?_, fun p hp => ?_, fun p hp => ?_⟩
  · refine List.nodup_append.mpr ⟨h.nodup, g.nodup, ?_⟩
    rintro p hp _ hq rfl
    exact (hmore p hq).2 hp
  · rcases List.mem_append.mp hp with hp | hp
    · exact h.fresh p hp
    · exact (hmore p hp).1
  · rcases List.mem_append.mp hp with hp | hp
    · exact h.kind p hp
    · exact g.kind p hp

theorem Strands.mem (h : Strands loses s t lost) (hp : path ∈ s.resolving) :
    path ∈ t.resolving := by
  rw [h.resolving]
  exact List.mem_append_left lost hp

theorem Strands.enter (hp : path ∉ s.resolving) (hl : loses path) :
    Strands loses s (s.enter path) [path] :=
  ⟨rfl, by simp, by simpa using hp, by simpa using hl⟩

theorem Strands.leave (h : Strands loses (s.enter path) t lost) (hp : path ∉ s.resolving) :
    Strands loses s (t.leave path) lost := by
  have hleave : (t.leave path).resolving = s.resolving ++ lost := by
    simp only [Session.leave, h.resolving, Session.enter, List.append_assoc]
    rw [List.erase_append_right _ hp, List.singleton_append, List.erase_cons_head]
  exact ⟨hleave, h.nodup, fun p hm hs => h.fresh p hm (mem_enter.mpr (.inl hs)), h.kind⟩

/-! ## What a request adds -/

/-- The paths of a chain are in progress, scripts stand for them, and the bound makes up for what
the chain lacks of the number of imports that can be nested. -/
structure Nested (e : Environment) (depth : Nat) (chain : List String) (s : Session) : Prop where
  inside : ∀ p ∈ chain, p ∈ s.resolving
  nodup : chain.Nodup
  scripts : ∀ p ∈ chain, ∃ source, e.script? p = some source
  deep : chain.length + depth = e.depth

theorem nested_start (e : Environment) (s : Session) : Nested e e.depth [] s :=
  ⟨by simp, List.nodup_nil, by simp, Nat.zero_add _⟩

theorem Nested.of_strands (h : Nested e depth chain s) (hs : Strands e.Loses s t lost) :
    Nested e depth chain t :=
  ⟨fun p hp => hs.mem (h.inside p hp), h.nodup, h.scripts, h.deep⟩

theorem Nested.nodup_concat (h : Nested e depth chain s) (hp : path ∉ s.resolving) :
    (chain ++ [path]).Nodup := by
  have hnew : path ∉ chain := fun hc => hp (h.inside path hc)
  exact List.concat_eq_append ▸ List.Nodup.concat hnew h.nodup

theorem Nested.scripts_concat (h : Nested e depth chain s) (hf : e.script? path = some source) :
    ∀ p ∈ chain ++ [path], ∃ source, e.script? p = some source := by
  intro p hp
  rcases List.mem_append.mp hp with hp | hp
  · exact h.scripts p hp
  · exact ⟨source, List.mem_singleton.mp hp ▸ hf⟩

theorem Nested.enter (h : Nested e (depth + 1) chain s) (hp : path ∉ s.resolving)
    (hf : e.script? path = some source) : Nested e depth (chain ++ [path]) (s.enter path) := by
  refine ⟨fun p hm => ?_, h.nodup_concat hp, h.scripts_concat hf, ?_⟩
  · rcases List.mem_append.mp hm with hm | hm
    · exact mem_enter.mpr (.inl (h.inside p hm))
    · exact mem_enter.mpr (.inr (List.mem_singleton.mp hm))
  · have hd := h.deep
    rw [List.length_append, List.length_singleton]
    omega

theorem Nested.not_bounded (h : Nested e 0 chain s) (hp : path ∉ s.resolving)
    (hf : e.script? path = some source) : ¬e.Bounded := by
  rintro ⟨paths, hlen, hmem⟩
  have hsub : chain ++ [path] ⊆ paths := by
    intro p hm
    obtain ⟨source, hs⟩ := h.scripts_concat hf p hm
    exact hmem p source hs
  have hle := ((h.nodup_concat hp).subperm hsub).length_le
  have hd := h.deep
  rw [List.length_append, List.length_singleton] at hle
  omega

theorem answerWith_resolving (resolve : String → Session → PathAnswer × Session) (again : Bool)
    (path : String) (s : Session) :
    (answerWith resolve again path s).2.resolving = s.resolving
      ∨ (answerWith resolve again path s).2.resolving = (resolve path s).2.resolving := by
  have h := answerWith_answered resolve again path s
  generalize answerWith resolve again path s = result at h
  cases h with
  | cached _ _ => exact .inl rfl
  | kept _ hr => exact .inr (by rw [hr]; rfl)
  | crashed _ hr => exact .inr (by rw [hr])

theorem Strands.answer {resolve : String → Session → PathAnswer × Session}
    (h : Strands loses s (resolve path s).2 lost) (again : Bool) :
    ∃ lost, Strands loses s (answerWith resolve again path s).2 lost := by
  rcases answerWith_resolving resolve again path s with hr | hr
  · exact ⟨[], .of_eq hr⟩
  · exact ⟨lost, hr.trans h.resolving, h.nodup, h.fresh, h.kind⟩

theorem statements_strands
    (hans : ∀ path s, Nested e depth chain s →
      ∃ lost, Strands e.Loses s (resolve e depth path s).2 lost)
    (hs : Nested e depth chain s) (n : Nat) (p : ParserState) :
    ∃ lost, Strands e.Loses s (statements (imports e depth) n p s).2.2 lost := by
  refine statements_keep (I := fun t => ∃ lost, Strands e.Loses s t lost) ?_ n p ⟨[], .of_eq rfl⟩
  rintro path t ⟨lost, ht⟩
  obtain ⟨more, hmore⟩ := hans path t (hs.of_strands ht)
  obtain ⟨more, hmore⟩ := hmore.answer false
  exact ⟨lost ++ more, ht.trans hmore⟩

/-- Resolving a path adds what its script adds, or the path itself. -/
theorem Resolved.strands {a : PathAnswer} (h : Resolved e path s depth (a, t))
    (hs : Nested e depth chain s)
    (hunit : ∀ d source, depth = d + 1 → path ∉ s.resolving → e.script? path = some source →
      ∃ lost, Strands e.Loses (s.enter path)
        (compile e.config (imports e d) {} source (s.enter path)).2 lost) :
    ∃ lost, Strands e.Loses s t lost := by
  cases h with
  | cycle _ => exact ⟨[], .of_eq rfl⟩
  | crashed hp hc => exact ⟨[path], .enter hp (.inl hc)⟩
  | provided hp _ _ => exact ⟨[], .of_eq (leave_enter hp rfl)⟩
  | missing hp _ _ => exact ⟨[], .of_eq (leave_enter hp rfl)⟩
  | tooDeep hp hf => exact ⟨[path], .enter hp (.inr (hs.not_bounded hp hf))⟩
  | @script d source c u hp hf hc =>
    obtain ⟨lost, hlost⟩ := hunit d source rfl hp hf
    rw [hc] at hlost
    exact ⟨lost, hlost.leave hp⟩

theorem resolve_strands (hs : Nested e depth chain s) (path : String) :
    ∃ lost, Strands e.Loses s (resolve e depth path s).2 lost := by
  induction depth generalizing chain path s with
  | zero => exact (resolve_resolved e 0 path s).strands hs nofun
  | succ depth ih =>
    refine (resolve_resolved e (depth + 1) path s).strands hs fun d source hd hp hf => ?_
    obtain rfl := Nat.succ.inj hd
    exact statements_strands (fun path s hs => ih hs path) (hs.enter hp hf) (source.length + 2)
      (start e.config {} source)

theorem answer_strands (hs : Nested e depth chain s) (again : Bool) (path : String) :
    ∃ lost, Strands e.Loses s (answerWith (resolve e depth) again path s).2 lost := by
  obtain ⟨lost, hlost⟩ := resolve_strands hs path
  exact hlost.answer again

/-! ## What an operation adds -/

theorem serve_strands (e : Environment) (use : Use) (s : Session) :
    ∃ lost, Strands e.Loses s (e.serve use s) lost := by
  cases use with
  | get path => exact answer_strands (nested_start e s) false path
  | reread path => exact answer_strands (nested_start e s) true path
  | read visible source =>
    exact statements_strands (fun path s hs => resolve_strands hs path) (nested_start e s)
      (source.length + 2) (start e.config visible source)
  | clear => exact ⟨[], .of_eq rfl⟩

/-- Imports break down at a path in the course of some operations. -/
def LosesAlong (h : List (Environment × Use)) (path : String) : Prop := ∃ x ∈ h, x.1.Loses path

theorem fold_strands (h : List (Environment × Use)) (s : Session) :
    ∃ lost, Strands (LosesAlong h) s (h.foldl (fun s (e, use) => e.serve use s) s) lost := by
  induction h generalizing s with
  | nil => exact ⟨[], .of_eq rfl⟩
  | cons x h ih =>
    obtain ⟨first, hfirst⟩ := serve_strands x.1 x.2 s
    obtain ⟨later, hlater⟩ := ih (x.1.serve x.2 s)
    have hhead (p : String) (hp : x.1.Loses p) : LosesAlong (x :: h) p :=
      ⟨x, List.mem_cons_self, hp⟩
    have htail (p : String) (hp : LosesAlong h p) : LosesAlong (x :: h) p := by
      obtain ⟨y, hy, hl⟩ := hp
      exact ⟨y, List.mem_cons_of_mem x hy, hl⟩
    exact ⟨first ++ later, (hfirst.mono hhead).trans (hlater.mono htail)⟩

end Session

open Session

/-- At a moment of an operation, the session has the chain in progress. Any other path in progress
is there from before the operation, or imports broke down at it. -/
structure Underway.Holds (e : Environment) (before : Session) (depth : Nat) (chain : List String)
    (s : Session) : Prop where
  nested : Nested e depth chain s
  known : ∀ path ∈ s.resolving, path ∈ chain ∨ path ∈ before.resolving ∨ e.Loses path

theorem Underway.Holds.start (e : Environment) (before : Session) :
    Underway.Holds e before e.depth [] before :=
  ⟨nested_start e before, fun _ hp => .inr (.inl hp)⟩

theorem Underway.Holds.strands {e : Environment} {before s t : Session} {depth : Nat}
    {chain lost : List String} (h : Underway.Holds e before depth chain s)
    (ht : Strands e.Loses s t lost) : Underway.Holds e before depth chain t := by
  refine ⟨h.nested.of_strands ht, fun path hp => ?_⟩
  rw [ht.resolving] at hp
  rcases List.mem_append.mp hp with hp | hp
  · exact h.known path hp
  · exact .inr (.inr (ht.kind path hp))

theorem Underway.Holds.enter {e : Environment} {before s : Session} {depth : Nat}
    {chain : List String} {path : String} {source : Source}
    (h : Underway.Holds e before (depth + 1) chain s) (hp : path ∉ s.resolving)
    (hf : e.script? path = some source) :
    Underway.Holds e before depth (chain ++ [path]) (s.enter path) := by
  refine ⟨h.nested.enter hp hf, fun other ho => ?_⟩
  rcases List.mem_append.mp ho with ho | ho
  · exact (h.known other ho).imp_left (List.mem_append_left [path])
  · exact .inl (List.mem_append_right chain ho)

theorem turn_session {σ : Type} {resolve : Resolver σ} {t u : ParserState} {s s' : σ}
    (ht : turn resolve t s = (.goesOn, u, s')) :
    s' = s ∨ ∃ path, request? t = some path ∧ s' = (resolve path s).2 := by
  have h := turn_turned resolve t s
  rw [ht] at h
  cases h with
  | complete _ _ => exact .inl rfl
  | answered hr _ ha => exact .inr ⟨_, hr, by rw [ha]⟩

theorem Underway.holds {e : Environment} {use : Use} {before s : Session} {depth : Nat}
    {chain : List String} {source : Source} {t : ParserState}
    (h : Underway e use before depth chain source t s) :
    Underway.Holds e before depth chain s := by
  induction h with
  | read _ => exact .start e before
  | asked _ hd hp hf => exact (hd ▸ Underway.Holds.start e before).enter hp hf
  | nested _ _ _ hp hf ih => exact ih.enter hp hf
  | turn _ ht ih =>
    rcases turn_session ht with rfl | ⟨path, -, rfl⟩
    · exact ih
    · obtain ⟨lost, hlost⟩ := answer_strands ih.nested false path
      exact ih.strands hlost

end ConfigScript
