import ConfigScript.Parser.Value
import ConfigScript.Proofs.Parser.Outcome
import Mathlib.Order.Defs.Unbundled

/-! # What reading adds

Reports are only ever added, and none while the parser skips. A reader of values changes neither
what is visible nor what the script has come to so far; it leaves the parser skipping or not, as it
was, and starts no template. What the tokenizer reports is passed on as soon as a token is read. -/

namespace ConfigScript.Parser

variable {α β : Type} {R : ParserState → ParserState → Prop}

/-- From every state, a parser leads to one that stands in a relation to it. -/
def Moves (R : ParserState → ParserState → Prop) (p : Parser α) : Prop :=
  ∀ s, Yields p s fun _ t => R s t

section

variable [IsPreorder ParserState R]

theorem Moves.pure (a : α) : Moves R (pure a) := fun s => refl_of R s

theorem Moves.bind {p : Parser α} {f : α → Parser β} (hp : Moves R p) (hf : ∀ a, Moves R (f a)) :
    Moves R (p >>= f) :=
  fun s => Yields.bind (hp s) fun a t ht => (hf a t).mono fun _ _ hu => trans_of R ht hu

theorem Moves.forM (xs : List β) {f : β → Parser Unit} (hf : ∀ x, Moves R (f x)) :
    Moves R (xs.forM f) := by
  induction xs with
  | nil => exact Moves.pure _
  | cons x xs ih => exact Moves.bind (hf x) fun _ => ih

theorem Moves.turns (hex : Moves R exhaust) {step : α → Parser (Turn α)}
    (hstep : ∀ a, Moves R (step a)) (n : Nat) (a : α) : Moves R (turns step n a) := by
  intro s
  refine Yields.of_turns_keep (I := fun _ u => R s u) (fun b u hu => ?_)
    (fun _ u hu => trans_of R hu (hex u)) (refl_of R s)
  refine (hstep b u).mono fun r v hv => ?_
  cases r with
  | again b => exact trans_of R hu hv
  | done b => exact trans_of R hu hv

theorem Moves.loop (hex : Moves R exhaust) {step : α → Parser (Turn α)}
    (hstep : ∀ a, Moves R (step a)) (a : α) : Moves R (loop step a) :=
  fun s => Yields.get_bind (Moves.turns hex hstep _ a s)

end

theorem Moves.get_bind {f : ParserState → Parser β} (hf : ∀ s, Moves R (f s)) :
    Moves R (get >>= f) :=
  fun s => Yields.get_bind (hf s s)

theorem Moves.ite {c : Prop} [Decidable c] {p q : Parser α} (hp : Moves R p) (hq : Moves R q) :
    Moves R (if c then p else q) :=
  fun s => Yields.of_ite (fun _ => hp s) fun _ => hq s

theorem Moves.modify {g : ParserState → ParserState} (hg : ∀ s, R s (g s)) :
    Moves R (modify g) :=
  fun s => Yields.of_modify (hg s)

theorem Moves.mono {R' : ParserState → ParserState → Prop} {p : Parser α} (hp : Moves R p)
    (h : ∀ s t, R s t → R' s t) : Moves R' p :=
  fun s => (hp s).mono fun _ t => h s t

/-! ## Reading values -/

/-- A state that reading values can lead to. -/
structure Extends (s t : ParserState) : Prop where
  config : t.config = s.config
  recovering : t.recovering = s.recovering
  root : t.root = s.root
  exported : t.exported = s.exported
  visible : t.visible = s.visible
  template : s.template = none → t.template = none
  reports : s.reports <+: t.reports
  accessedMade : s.accessedMade = true → t.accessedMade = true
  hushed : s.recovering = true → t.reports = s.reports
  waiting : s.tokenizer.reports = [] → t.tokenizer.reports = []
  exhausted : s.exhausted = true → t.exhausted = true

theorem Extends.refl (s : ParserState) : Extends s s :=
  ⟨rfl, rfl, rfl, rfl, rfl, id, List.prefix_rfl, id, fun _ => rfl, id, id⟩

theorem Extends.trans {s t u : ParserState} (h : Extends s t) (g : Extends t u) : Extends s u :=
  ⟨g.config.trans h.config, g.recovering.trans h.recovering, g.root.trans h.root,
    g.exported.trans h.exported, g.visible.trans h.visible, fun hs => g.template (h.template hs),
    h.reports.trans g.reports, fun hs => g.accessedMade (h.accessedMade hs),
    fun hs => (g.hushed (h.recovering.trans hs)).trans (h.hushed hs),
    fun hs => g.waiting (h.waiting hs), fun hs => g.exhausted (h.exhausted hs)⟩

instance : IsPreorder ParserState Extends where
  refl := Extends.refl
  trans _ _ _ := Extends.trans

theorem addReports_extends (rs : List Report) : Moves Extends (addReports rs) := by
  intro s
  refine Yields.of_modify ?_
  split
  · exact .refl s
  · exact ⟨rfl, rfl, rfl, rfl, rfl, id, List.prefix_append _ _, id, fun h => absurd h ‹_›, id,
      id⟩

theorem report_extends (r : Report) : Moves Extends (report r) := addReports_extends [r]

theorem next_extends (skipBreaks : Bool) (mode : ReadMode) :
    Moves Extends (next skipBreaks mode) := by
  intro s
  refine Yields.get_bind (Yields.set_bind (Yields.bind (addReports_extends _ _) fun _ t ht => ?_))
  exact Yields.of_pure ⟨ht.1, ht.2, ht.3, ht.4, ht.5, ht.6, ht.7, ht.8, ht.9,
    fun _ => ht.waiting rfl, ht.11⟩

theorem discard_extends : Moves Extends discard :=
  Moves.modify fun _ => ⟨rfl, rfl, rfl, rfl, rfl, id, List.prefix_rfl, id, fun _ => rfl, id, id⟩

theorem rewind_extends (again : Bool) : Moves Extends (rewind again) :=
  Moves.modify fun _ => ⟨rfl, rfl, rfl, rfl, rfl, id, List.prefix_rfl, id, fun _ => rfl,
    by cases again <;> exact id, id⟩

theorem exhaust_extends : Moves Extends exhaust :=
  Moves.modify fun _ =>
    ⟨rfl, rfl, rfl, rfl, rfl, id, List.prefix_rfl, id, fun _ => rfl, id, fun _ => rfl⟩

theorem substitute_extends : Moves Extends substitute :=
  fun _ => ⟨rfl, rfl, rfl, rfl, rfl, id, List.prefix_rfl, id, fun _ => rfl, id, id⟩

theorem noteAccess_extends (n : Node) : Moves Extends (noteAccess n) :=
  Moves.modify fun _ =>
    ⟨rfl, rfl, rfl, rfl, rfl, id, List.prefix_rfl, fun h => by simp only [h, Bool.true_or],
      fun _ => rfl, id, id⟩

theorem noteLost_extends (marks : List Nat) : Moves Extends (noteLost marks) :=
  Moves.modify fun _ => ⟨rfl, rfl, rfl, rfl, rfl, id, List.prefix_rfl, id, fun _ => rfl, id, id⟩

/-! ## Expansion -/

theorem resolveParam?_extends (n : Node) : Moves Extends (resolveParam? n) := by
  intro s
  refine Yields.get_bind ?_
  split
  · exact Yields.of_pure (.refl s)
  · rename_i n' t rs he
    obtain ⟨t₀, ht₀, -⟩ := Option.bind_eq_some_iff.mp he
    have hs : Extends s { s with template := some t } :=
      ⟨rfl, rfl, rfl, rfl, rfl, by simp [ht₀], List.prefix_rfl, id, fun _ => rfl, id, id⟩
    refine Yields.modify_bind (Yields.bind (addReports_extends rs _) fun _ u hu => ?_)
    exact Yields.of_pure (hs.trans hu)

theorem expanded_extends (name : String) (position : Nat) (r : MacroResult) :
    Moves Extends (expanded name position r) := by
  cases r with
  | produced n => exact Moves.pure _
  | refused => exact substitute_extends
  | fault f => exact Moves.bind (report_extends _) fun _ => substitute_extends
  | crashed message => exact Moves.bind (report_extends _) fun _ => substitute_extends

theorem callMacro_extends (n : Node) (kind : MacroKind) (position : Nat) :
    Moves Extends (callMacro n kind position) := by
  intro s
  refine Yields.get_bind (Yields.of_ite (fun _ => Yields.of_pure (.refl s)) fun _ => ?_)
  refine Yields.bind (addReports_extends _ _) fun _ t ht => ?_
  split
  · exact (substitute_extends t).mono fun _ _ hu => ht.trans hu
  · rename_i m template he
    refine Yields.modify_bind (Yields.of_pure ?_)
    exact ⟨ht.1, ht.2, ht.3, ht.4, ht.5, by simp [he], ht.7, ht.8, ht.9, ht.10, ht.11⟩
  · refine Yields.bind (addReports_extends _ _) fun _ u hu => ?_
    exact (expanded_extends _ _ _ u).mono fun _ _ hv => (ht.trans hu).trans hv

theorem accessorCall_extends (a b : Node) (o : Operator) (position : Nat) :
    Moves Extends (accessorCall a b o position) := by
  unfold accessorCall
  refine Moves.bind (noteAccess_extends b) fun _ => ?_
  split
  · exact callMacro_extends _ _ _
  · exact callMacro_extends _ _ _
  · exact callMacro_extends _ _ _

theorem namedValue_extends (token : Token) (kind : MacroKind) (n : Node) :
    Moves Extends (namedValue token kind n) := by
  unfold namedValue
  refine Moves.ite (Moves.pure _) (Moves.bind (resolveParam?_extends _) fun found => ?_)
  split
  · exact Moves.pure _
  · exact Moves.bind (callMacro_extends _ _ _) fun _ => Moves.pure _

end ConfigScript.Parser
