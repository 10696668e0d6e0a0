import ConfigScript.Parser.Expansion
import ConfigScript.Proofs.Parser.Outcome
import ConfigScript.Proofs.Token.Poised

/-! # Reading without definitions

While no macro and no operator is known, no macro body is read and nothing has been reported, the
parser takes each value as it is written. -/

namespace ConfigScript.Parser

open Scan

variable {β : Type} {root : List Node} {s t : ParserState} {mode : ReadMode}
  {text rest : List Char} {kind : TokenKind} {literal : Option String} {token : Token}
  {Q : β → ParserState → Prop} {operators : OperatorTable}

/-- No macro is defined and nothing has been reported; the values read so far are given. -/
structure Quiet (root : List Node) (s : ParserState) (operators : OperatorTable := {}) : Prop where
  visible : s.visible = { operators }
  template : s.template = none
  reports : s.reports = []
  queued : s.tokenizer.reports = []
  exhausted : s.exhausted = false
  root : s.root = root

/-! ## Tokens -/

theorem Quiet.setTokenizer (h : Quiet root s operators) {t : Tokenizer} (ht : t.reports = []) :
    Quiet root { s with tokenizer := t } operators :=
  ⟨h.visible, h.template, h.reports, ht, h.exhausted, h.root⟩

theorem next_quiet {skipBreaks : Bool} (hq : Quiet root s operators)
    (hr : (s.tokenizer.next skipBreaks mode operators).2.reports = []) :
    Yields (next skipBreaks mode) s fun token t =>
      token = (s.tokenizer.next skipBreaks mode operators).1 ∧ Quiet root t operators
        ∧ t.tokenizer = (s.tokenizer.next skipBreaks mode operators).2 := by
  obtain ⟨token, u, hnext⟩ : ∃ token u, s.tokenizer.next skipBreaks mode operators = (token, u) :=
    ⟨_, _, rfl⟩
  rw [hnext] at hr ⊢
  have ho : s.visible.operators = operators := by rw [hq.visible]
  have hu : { u with reports := [] } = u := by
    have hr : u.reports = [] := hr
    rw [← hr]
  refine Yields.get_bind ?_
  rw [ho, hnext]
  refine Yields.set_bind (Yields.bind (addReports_nil hr) fun _ t ht => Yields.of_pure ?_)
  subst ht
  exact ⟨rfl, hq.setTokenizer rfl, hu⟩

theorem Yields.next_quiet {f : Token → Parser β} {skipBreaks : Bool} (hq : Quiet root s operators)
    (hr : (s.tokenizer.next skipBreaks mode operators).2.reports = [])
    (hf : ∀ t, Quiet root t operators →
      t.tokenizer = (s.tokenizer.next skipBreaks mode operators).2 →
      Yields (f (s.tokenizer.next skipBreaks mode operators).1) t Q) :
    Yields (next skipBreaks mode >>= f) s Q := by
  refine Yields.bind (Parser.next_quiet hq hr) fun token t ht => ?_
  obtain ⟨rfl, hqt, htt⟩ := ht
  exact hf t hqt htt

theorem Yields.next_hand {f : Token → Parser β} {skipBreaks : Bool} (hq : Quiet root s operators)
    (hp : s.tokenizer.Poised mode text operators) (hl : Lexes mode text kind literal rest operators)
    (hb : skipBreaks = true → kind ≠ .lineBreak)
    (hf : ∀ start t, Quiet root t operators →
      s.tokenizer.Hands text ⟨kind, start, literal⟩ rest t.tokenizer →
      Yields (f ⟨kind, start, literal⟩) t Q) :
    Yields (next skipBreaks mode >>= f) s Q := by
  obtain ⟨start, htoken, hands⟩ := hp.next hl hq.queued hb
  refine Yields.next_quiet hq hands.reports fun t hqt htt => ?_
  rw [htoken] at hands ⊢
  exact hf start t hqt (htt ▸ hands)

theorem Quiet.discard (h : Quiet root s operators) :
    Quiet root { s with tokenizer := s.tokenizer.discard } operators := h.setTokenizer h.queued

theorem Yields.discard_hold {f : Token → Parser β} {skipBreaks : Bool} (hq : Quiet root s operators)
    (hp : s.tokenizer.Poised mode text operators) (hl : Lexes mode text kind literal rest operators)
    (hb : skipBreaks = true → kind ≠ .lineBreak)
    (hf : ∀ start t, Quiet root t operators → t.tokenizer.Holds text ⟨kind, start, literal⟩ rest →
      Yields (f ⟨kind, start, literal⟩) t Q) :
    Yields (Parser.discard >>= fun _ => next skipBreaks mode >>= f) s Q := by
  refine Yields.modify_bind (Yields.next_hand hq.discard hp.discard hl hb fun start t hqt ht => ?_)
  exact hf start t hqt (ht.holds rfl)

theorem Yields.reread_bind {f : PUnit → Parser β} (hq : Quiet root s operators)
    (hs : s.tokenizer.Since text rest)
    (hf : ∀ t, Quiet root t operators → t.tokenizer.Fresh text → Yields (f ⟨⟩) t Q) :
    Yields (rewind true >>= f) s Q :=
  Yields.modify_bind (hf _ (hq.setTokenizer hq.queued) hs.reread)

theorem Yields.replay_bind {f : PUnit → Parser β} (hq : Quiet root s operators)
    (hs : s.tokenizer.Holds text token rest)
    (hl : Lexes mode text token.kind token.literal rest operators)
    (hf : ∀ t, Quiet root t operators → t.tokenizer.Poised mode text operators →
      Yields (f ⟨⟩) t Q) :
    Yields (rewind false >>= f) s Q :=
  Yields.modify_bind (hf _ (hq.setTokenizer hq.queued) (hs.replay hl))

/-! ## Values as they are written -/

theorem resolveParam?_quiet (hq : Quiet root s operators) (n : Node) :
    Yields (resolveParam? n) s fun r t => r = none ∧ t = s := by
  refine Yields.get_bind ?_
  rw [hq.template]
  exact ⟨rfl, rfl⟩

theorem callMacro_quiet (hq : Quiet root s operators) (n : Node) (kind : MacroKind)
    (position : Nat) :
    Yields (callMacro n kind position) s fun m t => m = n ∧ t = s := by
  refine Yields.get_bind ?_
  rw [hq.visible]
  exact ⟨rfl, rfl⟩

theorem primitiveValue_quiet (hq : Quiet root s operators) (token : Token) :
    Yields (primitiveValue token) s fun n t =>
      n = (Node.value token.text).placedAt token.start ∧ t = s := by
  unfold primitiveValue
  refine Yields.of_ite (fun _ => ⟨rfl, rfl⟩) fun _ => ?_
  refine Yields.bind (resolveParam?_quiet hq _) fun r t hr => ?_
  obtain ⟨rfl, rfl⟩ := hr
  exact callMacro_quiet hq _ .constant token.start

end ConfigScript.Parser
