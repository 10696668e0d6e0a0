import ConfigScript.Parser.State
import ConfigScript.Proofs.Operator.Valid

/-! # Outcomes of parsers

What holds of the value and the state that a parser leads to, stated for one starting state and
put together along the parser: first one step, then what follows it. A loop is met by an invariant
of its turns and a measure that every further turn makes smaller. -/

namespace ConfigScript

/-- A property of the state of a loop after one turn: one for going on, one for the end. -/
def Turn.Meets {α : Type} (again done : α → Prop) : Turn α → Prop
  | .again a => again a
  | .done a => done a

namespace Parser

variable {α β : Type} {s : ParserState}

/-- Both turns go on, or both are the last. -/
def TurnsAlike (R : α → α → Prop) : Turn α → Turn α → Prop
  | .again b, .again a => R b a
  | .done b, .done a => R b a
  | _, _ => False

/-- Run from a state, the parser leads to a value and a state with a property. -/
def Yields (p : Parser α) (s : ParserState) (Q : α → ParserState → Prop) : Prop :=
  Q (p.run s).1 (p.run s).2

theorem Yields.of_pure {a : α} {Q : α → ParserState → Prop} (h : Q a s) :
    Yields (pure a) s Q := h

theorem Yields.bind {p : Parser α} {f : α → Parser β} {P : α → ParserState → Prop}
    {Q : β → ParserState → Prop} (hp : Yields p s P)
    (hf : ∀ a t, P a t → Yields (f a) t Q) : Yields (p >>= f) s Q :=
  hf _ _ hp

theorem Yields.mono {p : Parser α} {P Q : α → ParserState → Prop} (hp : Yields p s P)
    (h : ∀ a t, P a t → Q a t) : Yields p s Q :=
  h _ _ hp

theorem Yields.and {p : Parser α} {P Q : α → ParserState → Prop} (hp : Yields p s P)
    (hq : Yields p s Q) : Yields p s fun a t => P a t ∧ Q a t :=
  ⟨hp, hq⟩

theorem Yields.of_run {p : Parser α} {Q : α → ParserState → Prop} {a : α} {t : ParserState}
    (h : Yields p s Q) (hrun : p.run s = (a, t)) : Q a t := by
  rwa [Yields, hrun] at h

theorem Yields.by_run {p : Parser α} {Q : α → ParserState → Prop}
    (h : ∀ a t, p.run s = (a, t) → Q a t) : Yields p s Q :=
  h _ _ rfl

theorem Yields.bind_run {p : Parser α} {f : α → Parser β} {Q : β → ParserState → Prop}
    (h : ∀ a t, p.run s = (a, t) → Yields (f a) t Q) : Yields (p >>= f) s Q :=
  h _ _ rfl

theorem run_bind {p : Parser α} {f : α → Parser β} {a : α} {t : ParserState}
    (h : p.run s = (a, t)) : (p >>= f).run s = (f a).run t := by
  change (f (p.run s).1).run (p.run s).2 = _
  rw [h]

theorem Yields.get_bind {f : ParserState → Parser β} {Q : β → ParserState → Prop}
    (h : Yields (f s) s Q) : Yields (get >>= f) s Q := h

theorem Yields.modify_bind {g : ParserState → ParserState} {f : PUnit → Parser β}
    {Q : β → ParserState → Prop} (h : Yields (f ⟨⟩) (g s) Q) :
    Yields (modify g >>= f) s Q := h

theorem Yields.of_modify {g : ParserState → ParserState} {Q : PUnit → ParserState → Prop}
    (h : Q ⟨⟩ (g s)) : Yields (modify g) s Q := h

theorem Yields.set_bind {t : ParserState} {f : PUnit → Parser β} {Q : β → ParserState → Prop}
    (h : Yields (f ⟨⟩) t Q) : Yields (set t >>= f) s Q := h

theorem Yields.of_ite {c : Prop} [Decidable c] {p q : Parser α} {Q : α → ParserState → Prop}
    (hp : c → Yields p s Q) (hq : ¬c → Yields q s Q) : Yields (if c then p else q) s Q := by
  split
  · exact hp ‹_›
  · exact hq ‹_›

/-- Inside of `outsideTemplate` no template is under construction, and after it the one from
before is. -/
theorem Yields.of_outsideTemplate {p : Parser α} {Q : α → ParserState → Prop}
    (h : Yields p { s with template := none } fun a t => Q a { t with template := s.template }) :
    Yields (outsideTemplate p) s Q := h

/-- Turns with an invariant and a measure end before their number runs out. -/
theorem Yields.of_turns {step : α → Parser (Turn α)} (measure : ParserState → Nat)
    {I Q : α → ParserState → Prop}
    (hstep : ∀ a s, I a s → Yields (step a) s fun r t =>
      r.Meets (fun b => I b t ∧ measure t < measure s) fun b => Q b t)
    {n : Nat} {a : α} (hi : I a s) (hn : measure s < n) : Yields (turns step n a) s Q := by
  induction n generalizing a s with
  | zero => omega
  | succ n ih =>
    refine Yields.bind (hstep a s hi) fun r t hr => ?_
    cases r with
    | done b => exact hr
    | again b => exact ih hr.1 (by have := hr.2; omega)

theorem Yields.of_turns_keep {step : α → Parser (Turn α)} {I : α → ParserState → Prop}
    (hstep : ∀ a s, I a s → Yields (step a) s fun r t => r.Meets (I · t) (I · t))
    (hex : ∀ a s, I a s → I a { s with exhausted := true }) {n : Nat} {a : α} (hi : I a s) :
    Yields (turns step n a) s I := by
  induction n generalizing a s with
  | zero => exact hex a s hi
  | succ n ih =>
    refine Yields.bind (hstep a s hi) fun r t hr => ?_
    cases r with
    | done b => exact hr
    | again b => exact ih hr

/-! ## Steps that leave the text alone -/

/-- The tokens have not changed, and the operators are still valid. -/
structure Still (s t : ParserState) : Prop where
  tokenizer : t.tokenizer = s.tokenizer
  operators : s.visible.operators.Valid → t.visible.operators.Valid
  exhausted : t.exhausted = s.exhausted

theorem Still.refl (s : ParserState) : Still s s := ⟨rfl, id, rfl⟩

theorem Still.trans {s t u : ParserState} (h : Still s t) (g : Still t u) : Still s u :=
  ⟨g.tokenizer.trans h.tokenizer, fun ho => g.operators (h.operators ho),
    g.exhausted.trans h.exhausted⟩

theorem addReports_still (rs : List Report) : Yields (addReports rs) s fun _ t => Still s t := by
  refine Yields.of_modify ?_
  split
  · exact .refl s
  · exact ⟨rfl, id, rfl⟩

theorem addReports_nil {rs : List Report} (h : rs = []) :
    Yields (addReports rs) s fun _ t => t = s := by
  subst h
  refine Yields.of_modify ?_
  split
  · rfl
  · rw [List.map_nil, List.append_nil]

theorem report_still (r : Report) : Yields (report r) s fun _ t => Still s t :=
  addReports_still [r]

theorem error_still (message : String) : Yields (error message) s fun _ t => Still s t :=
  report_still _

theorem substitute_still : Yields substitute s fun _ t => Still s t := ⟨rfl, id, rfl⟩

theorem noteAccess_still (n : Node) : Yields (noteAccess n) s fun _ t => Still s t :=
  ⟨rfl, id, rfl⟩

@[simp] theorem lostWith_nil (s : ParserState) : lostWith [] s = s.lost := ite_self _

theorem lostWith_of_none (marks : List Nat) (h : s.template = none) :
    lostWith marks s = s.lost := by
  rw [lostWith, h]
  rfl

theorem noteLost_nil : noteLost [] = pure () := by
  funext s
  change (((), { s with lost := lostWith [] s }) : Unit × ParserState) = ((), s)
  rw [lostWith_nil]

theorem noteLost_still (marks : List Nat) : Yields (noteLost marks) s fun _ t => Still s t :=
  ⟨rfl, id, rfl⟩

end Parser

end ConfigScript
