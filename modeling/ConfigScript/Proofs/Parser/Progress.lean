import ConfigScript.Parser.Recovery
import ConfigScript.Proofs.Parser.Outcome
import ConfigScript.Proofs.Token.Kept
import Mathlib.Data.Nat.Basic
import Mathlib.Order.Basic

/-! # Reading makes progress

A parser measures what is left of the text from the next token on, and from the committed place
on. Each step below says what becomes of both. A loop ends because each further turn leaves less
text, so no recursion is ever cut short. -/

namespace ConfigScript.Parser

variable {α β : Type} {cs : List Char} {s t : ParserState}

/-- A parser at work on a text: the kept tokens lie on it, the operators have spellings, and no
recursion was cut short. -/
structure Ready (cs : List Char) (s : ParserState) : Prop where
  onText : s.tokenizer.OnText cs
  operators : s.visible.operators.Valid
  complete : s.exhausted = false

/-- How much text is left from the next token on. -/
def left (s : ParserState) : Nat := s.tokenizer.here.rest.length

/-- How much text is left from the committed place on. -/
def uncommitted (s : ParserState) : Nat := s.tokenizer.committed.rest.length

theorem Ready.left_le (h : Ready cs s) : left s ≤ uncommitted s :=
  h.onText.committed_reaches_here.length_le

/-- Nothing is taken back that had been committed before. -/
structure Within (cs : List Char) (s t : ParserState) : Prop where
  ready : Ready cs t
  left_le : left t ≤ uncommitted s
  le : uncommitted t ≤ uncommitted s

/-- Nothing is taken back that had been read before. -/
structure Onward (cs : List Char) (s t : ParserState) : Prop where
  ready : Ready cs t
  left_le : left t ≤ left s
  le : uncommitted t ≤ uncommitted s

/-- What had been read before is committed. -/
structure Commits (cs : List Char) (s t : ParserState) : Prop where
  ready : Ready cs t
  le : uncommitted t ≤ left s

variable {u : ParserState}

theorem Ready.within (h : Ready cs s) : Within cs s s := ⟨h, h.left_le, Nat.le_refl _⟩

theorem Ready.onward (h : Ready cs s) : Onward cs s s := ⟨h, Nat.le_refl _, Nat.le_refl _⟩

theorem Commits.left_le (h : Commits cs s t) : left t ≤ left s := h.ready.left_le.trans h.le

theorem Commits.onward (h : Commits cs s t) (hs : Ready cs s) : Onward cs s t :=
  ⟨h.ready, h.left_le, h.le.trans hs.left_le⟩

theorem Onward.within (h : Onward cs s t) (hs : Ready cs s) : Within cs s t :=
  ⟨h.ready, h.left_le.trans hs.left_le, h.le⟩

theorem Within.trans (h : Within cs s t) (g : Within cs t u) : Within cs s u :=
  ⟨g.ready, g.left_le.trans h.le, g.le.trans h.le⟩

theorem Onward.trans (h : Onward cs s t) (g : Onward cs t u) : Onward cs s u :=
  ⟨g.ready, g.left_le.trans h.left_le, g.le.trans h.le⟩

theorem Onward.commits (h : Onward cs s t) (g : Commits cs t u) : Commits cs s u :=
  ⟨g.ready, g.le.trans h.left_le⟩

theorem Commits.within (h : Commits cs s t) (g : Within cs t u) : Commits cs s u :=
  ⟨g.ready, g.le.trans h.le⟩

theorem Commits.trans (h : Commits cs s t) (g : Commits cs t u) : Commits cs s u :=
  ⟨g.ready, g.le.trans h.left_le⟩

/-! ## Steps that leave the text alone -/

theorem Still.left (h : Still s t) : left t = left s := by
  rw [Parser.left, h.tokenizer, Parser.left]

theorem Still.uncommitted (h : Still s t) : uncommitted t = uncommitted s := by
  rw [Parser.uncommitted, h.tokenizer, Parser.uncommitted]

theorem Still.ready (h : Still s t) (hs : Ready cs s) : Ready cs t :=
  ⟨h.tokenizer ▸ hs.onText, h.operators hs.operators, h.exhausted.trans hs.complete⟩

theorem Still.onward (h : Still s t) (hs : Ready cs s) : Onward cs s t :=
  ⟨h.ready hs, h.left.le, h.uncommitted.le⟩

theorem Onward.still (h : Onward cs s t) (g : Still t u) : Onward cs s u :=
  h.trans (g.onward h.ready)

theorem Commits.still (h : Commits cs s t) (g : Still t u) : Commits cs s u :=
  ⟨g.ready h.ready, g.uncommitted.le.trans h.le⟩

/-! ## Tokens -/

/-- A kept token of some kind comes next. -/
def Awaits (kind : TokenKind) (s : ParserState) : Prop :=
  ∃ e es, s.tokenizer.ahead = e :: es ∧ e.1.kind = kind

/-- A token of some kind is the only one read since the last commit. -/
def Took (kind : TokenKind) (s : ParserState) : Prop :=
  ∃ e, s.tokenizer.taken = [e] ∧ e.1.kind = kind

/-- What reading a token comes to, with so much text from the committed place on. -/
structure Reads (cs : List Char) (text : Nat) (token : Token) (s t : ParserState) : Prop where
  ready : Ready cs t
  uncommitted : uncommitted t = text
  left_le : left t ≤ left s
  lt : token.kind ≠ .endOfFile → left t < left s
  ended : token.kind = .endOfFile → left t = 0 ∧ token.isLiteral = false
  replayed : ∀ kind, Awaits kind s → kind ≠ .lineBreak → token.kind = kind

theorem Reads.onward {token : Token} (h : Reads cs (Parser.uncommitted s) token s t) :
    Onward cs s t :=
  ⟨h.ready, h.left_le, h.uncommitted.le⟩

theorem Reads.commits {token : Token} (h : Reads cs (left s) token s t) : Commits cs s t :=
  ⟨h.ready, h.uncommitted.le⟩

theorem Reads.lt_of_isLiteral {n : Nat} {token : Token} (h : Reads cs n token s t)
    (hl : token.isLiteral = true) : left t < left s := by
  refine h.lt fun he => ?_
  rw [(h.ended he).2] at hl
  exact absurd hl Bool.false_ne_true

theorem Ready.discard (h : Ready cs s) :
    Ready cs { s with tokenizer := s.tokenizer.discard } :=
  ⟨h.onText.discard, h.operators, h.complete⟩

theorem next_reads (hs : Ready cs s) (skipBreaks : Bool) (mode : ReadMode) :
    Yields (next skipBreaks mode) s fun token t => Reads cs (uncommitted s) token s t := by
  obtain ⟨ht, hk⟩ := Tokenizer.next_onText hs.onText skipBreaks mode hs.operators
  refine Yields.get_bind (Yields.set_bind (Yields.bind (addReports_still _) fun _ t hst => ?_))
  have hr : Ready cs t := ⟨hst.tokenizer ▸ ⟨ht.1, ht.2⟩, hst.operators hs.operators,
    hst.exhausted.trans hs.complete⟩
  refine Yields.of_pure ⟨hr, ?_, ?_, ?_, ?_, ?_⟩
  · rw [hst.uncommitted]
    exact congrArg (·.rest.length) hk.committed
  · rw [hst.left]
    exact hk.forward.length_le
  · rw [hst.left]
    exact hk.progress
  · intro he
    rw [hst.left]
    exact ⟨congrArg List.length (hk.ended he).1, (hk.ended he).2⟩
  · rintro kind ⟨e, es, he, rfl⟩ hne
    exact congrArg Token.kind (hk.replayed e es he hne)

theorem next_took (mode : ReadMode) (hs : s.tokenizer.taken = []) :
    Yields (next false mode) s fun token t => Took token.kind t := by
  refine Yields.get_bind (Yields.set_bind (Yields.bind (addReports_still _) fun _ t hst => ?_))
  obtain ⟨c, hc⟩ := s.tokenizer.next_taken mode s.visible.operators
  rw [hs, List.nil_append] at hc
  refine Yields.of_pure ⟨((s.tokenizer.next false mode s.visible.operators).1, c), ?_, rfl⟩
  rw [hst.tokenizer]
  exact hc

theorem Yields.discard_next {skipBreaks : Bool} {mode : ReadMode} {f : Token → Parser β}
    {Q : β → ParserState → Prop} (hs : Ready cs s)
    (hf : ∀ token t, Reads cs (left s) token s t → (skipBreaks = false → Took token.kind t) →
      Yields (f token) t Q) :
    Yields (discard >>= fun _ => next skipBreaks mode >>= f) s Q := by
  have hc : uncommitted { s with tokenizer := s.tokenizer.discard } = left s :=
    congrArg (·.rest.length) (Tokenizer.committed_discard s.tokenizer)
  have hd := hc ▸ next_reads hs.discard skipBreaks mode
  have hk : Yields (next skipBreaks mode) { s with tokenizer := s.tokenizer.discard }
      fun token t => skipBreaks = false → Took token.kind t := by
    rintro rfl
    exact next_took mode rfl
  refine Yields.modify_bind (Yields.bind (hd.and hk) fun token t ht => ?_)
  exact hf token t ⟨ht.1.1, ht.1.2, ht.1.3, ht.1.4, ht.1.5, ht.1.6⟩ ht.2

/-- Goes back to the committed place. -/
structure Rewinds (cs : List Char) (s t : ParserState) : Prop where
  ready : Ready cs t
  uncommitted : uncommitted t = uncommitted s
  left : left t = Parser.uncommitted s

theorem rewind_spec (hs : Ready cs s) (again : Bool) :
    Yields (rewind again) s fun _ t => Rewinds cs s t := by
  refine Yields.of_modify ?_
  cases again with
  | true =>
    exact ⟨⟨hs.onText.reread, hs.operators, hs.complete⟩, rfl, rfl⟩
  | false =>
    exact ⟨⟨hs.onText.replay, hs.operators, hs.complete⟩, rfl,
      congrArg (·.rest.length) (Tokenizer.here_replay s.tokenizer)⟩

theorem rewind_awaits {kind : TokenKind} (hs : Took kind s) :
    Yields (rewind false) s fun _ t => Awaits kind t := by
  obtain ⟨e, he, hk⟩ := hs
  refine Yields.of_modify ⟨e, s.tokenizer.ahead, ?_, hk⟩
  simp only [Bool.false_eq_true, if_false, Tokenizer.replay, he, List.singleton_append]

theorem Rewinds.within (h : Rewinds cs s t) : Within cs s t :=
  ⟨h.ready, h.left.le, h.uncommitted.le⟩

/-! ## Loops -/

/-- A loop whose further turns leave less text ends by itself. -/
theorem Yields.of_loop {step : α → Parser (Turn α)} {I : ParserState → Prop}
    {Q : α → ParserState → Prop} (hI : ∀ s, I s → Ready cs s)
    (hstep : ∀ a s, I s → Yields (step a) s fun r t =>
      r.Meets (fun _ => I t ∧ left t < left s) fun b => Q b t)
    {a : α} (hs : I s) : Yields (loop step a) s Q := by
  have hle := (hI s hs).left_le
  refine Yields.get_bind ?_
  refine Yields.of_turns left (I := fun _ => I) hstep hs ?_
  rw [uncommitted] at hle
  omega

/-- What the turns of a loop share: nothing that had been read is taken back, and a further turn
leaves less text. -/
def Goes (cs : List Char) (s t : ParserState) : Prop := Onward cs s t ∧ left t < left s

theorem Goes.trans (h : Goes cs s t) (g : Onward cs t u) : Goes cs s u :=
  ⟨h.1.trans g, g.left_le.trans_lt h.2⟩

theorem Onward.goes (h : Onward cs s t) (g : Goes cs t u) : Goes cs s u :=
  ⟨h.trans g.1, g.2.trans_le h.left_le⟩

/-- A turn goes on with less text, or ends the loop. -/
def Carries (cs : List Char) (s : ParserState) (r : Turn α) (t : ParserState) : Prop :=
  r.Meets (fun _ => Goes cs s t) fun _ => Onward cs s t

theorem Goes.carries (h : Goes cs s t) (r : Turn α) : Carries cs s r t := by
  cases r with
  | again a => exact h
  | done a => exact h.1

theorem Carries.onward {r : Turn α} (h : Carries cs s r t) : Onward cs s t := by
  cases r with
  | again a => exact h.1
  | done a => exact h

theorem Onward.carries {r : Turn α} (h : Onward cs s t) (g : Carries cs t r u) :
    Carries cs s r u := by
  cases r with
  | again a => exact h.goes g
  | done a => exact h.trans g

theorem Yields.of_goes {step : α → Parser (Turn α)} {Q : α → ParserState → Prop}
    (hs : Ready cs s)
    (hstep : ∀ a u, Onward cs s u → Yields (step a) u fun r t =>
      r.Meets (fun _ => Goes cs u t) fun b => Q b t)
    {a : α} : Yields (loop step a) s Q := by
  refine Yields.of_loop (I := Onward cs s) (fun _ h => h.ready) (fun a u hu => ?_) hs.onward
  refine (hstep a u hu).mono fun r t h => ?_
  cases r with
  | again b => exact ⟨hu.trans h.1, h.2⟩
  | done b => exact h

theorem Yields.of_carries {step : α → Parser (Turn α)} (hs : Ready cs s)
    (hstep : ∀ a u, Onward cs s u → Yields (step a) u fun r t => Carries cs u r t) {a : α} :
    Yields (loop step a) s fun _ t => Onward cs s t := by
  refine Yields.of_goes hs fun a u hu => (hstep a u hu).mono fun r t h => ?_
  cases r with
  | again b => exact h
  | done b => exact hu.trans h

end ConfigScript.Parser
