import ConfigScript.Proofs.Token.Spelling
import ConfigScript.Token.Tokenizer

/-! # Tokenizers that stand before a text

A tokenizer stands before a text if the text is still to be read, or if its first token has been
read and is to be handed out again. It hands out the first token of the text, and can go back to
where the text begins. -/

namespace ConfigScript.Tokenizer

open Scan

variable {mode : ReadMode} {text rest after : List Char} {kind : TokenKind}
  {literal : Option String} {token : Token} {t u : Tokenizer} {operators : OperatorTable}

/-- No token is to be handed out again, and this much of the text is left. -/
structure Rests (rest : List Char) (t : Tokenizer) : Prop where
  ahead : t.ahead = []
  rest : t.cursor.rest = rest

/-- The text, read in the mode, is what comes next. -/
inductive Poised (mode : ReadMode) (text : List Char) (t : Tokenizer)
    (operators : OperatorTable := {}) : Prop
  | unread (h : t.Rests text)
  | kept (token : Token) (place : Cursor) (ahead : t.ahead = [(token, place)])
      (place_eq : place.rest = text)
      (lexes : Lexes mode text token.kind token.literal t.cursor.rest operators)

/-- No token is kept, and this much of the text is left. -/
structure Fresh (text : List Char) (t : Tokenizer) : Prop extends t.Rests text where
  taken : t.taken = []

/-- The kept tokens begin with the text, and all of them have been handed out. -/
structure Since (text rest : List Char) (t : Tokenizer) : Prop extends t.Rests rest where
  committed : t.committed.rest = text

/-- The first token of the text is the only one kept. -/
structure Holds (text : List Char) (token : Token) (rest : List Char) (t : Tokenizer) : Prop
    extends t.Rests rest where
  taken : ∃ place : Cursor, place.rest = text ∧ t.taken = [(token, place)]

/-- Handing out the first token of the text leads from one tokenizer to another. -/
structure Hands (t : Tokenizer) (text : List Char) (token : Token) (rest : List Char)
    (u : Tokenizer) : Prop extends u.Rests rest where
  taken : ∃ place : Cursor, place.rest = text ∧ u.taken = t.taken ++ [(token, place)]
  reports : u.reports = []

theorem Poised.advance (hp : t.Poised mode text operators)
    (hl : Lexes mode text kind literal rest operators) (hr : t.reports = []) :
    ∃ start, (t.advance mode operators).1 = ⟨kind, start, literal⟩
      ∧ t.Hands text (t.advance mode operators).1 rest (t.advance mode operators).2 := by
  cases hp with
  | unread h =>
    obtain ⟨start, htoken⟩ := (hl t.policy t.cursor.pos).token
    have hafter := (hl t.policy t.cursor.pos).after
    have hreports := (hl t.policy t.cursor.pos).reports
    rw [← h.rest] at htoken hafter hreports
    unfold Tokenizer.advance
    simp only [h.ahead, hreports]
    exact ⟨start, htoken, ⟨h.ahead, hafter⟩, ⟨t.cursor, h.rest, rfl⟩, hr⟩
  | kept token place ahead place_eq lexes =>
    obtain ⟨hk, hliteral, hrest⟩ := lexes_unique hl lexes
    unfold Tokenizer.advance
    simp only [ahead]
    refine ⟨token.start, ?_, ⟨rfl, hrest⟩, ⟨place, place_eq, rfl⟩, hr⟩
    rw [← hk, ← hliteral]

theorem Poised.next (hp : t.Poised mode text operators)
    (hl : Lexes mode text kind literal rest operators) (hr : t.reports = [])
    {skipBreaks : Bool} (hb : skipBreaks = true → kind ≠ .lineBreak) :
    ∃ start, (t.next skipBreaks mode operators).1 = ⟨kind, start, literal⟩
      ∧ t.Hands text (t.next skipBreaks mode operators).1 rest
        (t.next skipBreaks mode operators).2 := by
  obtain ⟨start, htoken, hands⟩ := hp.advance hl hr
  have hn : (t.next skipBreaks mode operators).1 = (t.advance mode operators).1
      ∧ (t.next skipBreaks mode operators).2
        = { (t.advance mode operators).2 with
          lastStart := (t.advance mode operators).1.start } := by
    unfold Tokenizer.next
    cases skipBreaks with
    | false => exact ⟨rfl, rfl⟩
    | true =>
      have hk : (t.advance mode operators).1.kind ≠ .lineBreak := by
        rw [htoken]
        exact hb rfl
      simp only [if_true, remaining, nextPastBreaks, if_neg hk]
      exact ⟨trivial, trivial⟩
  obtain ⟨h₁, h₂⟩ := hn
  rw [h₁, h₂]
  exact ⟨start, htoken, ⟨hands.ahead, hands.rest⟩, hands.taken, hands.reports⟩

/-! ## Going back -/

theorem Rests.poised (h : t.Rests text) (mode : ReadMode) : t.Poised mode text operators :=
  .unread h

theorem Fresh.since (h : t.Fresh text) : t.Since text text := by
  refine ⟨h.toRests, ?_⟩
  rw [committed, h.taken, h.ahead]
  exact h.rest

theorem Since.reread (h : t.Since text rest) : t.reread.Fresh text := ⟨⟨rfl, h.committed⟩, rfl⟩

theorem Fresh.replay (h : t.Fresh text) : t.replay.Fresh text := by
  refine ⟨⟨?_, h.rest⟩, rfl⟩
  simp [Tokenizer.replay, h.taken, h.ahead]

theorem Hands.holds (h : t.Hands text token rest u) (ht : t.taken = []) :
    u.Holds text token rest := by
  obtain ⟨place, hp, hu⟩ := h.taken
  rw [ht] at hu
  exact ⟨h.toRests, place, hp, hu⟩

theorem Holds.since (h : t.Holds text token rest) : t.Since text rest := by
  obtain ⟨place, hp, ht⟩ := h.taken
  refine ⟨h.toRests, ?_⟩
  rw [committed, ht]
  exact hp

theorem Since.hands (h : t.Since text rest) (hu : t.Hands rest token after u) :
    u.Since text after := by
  obtain ⟨place, hp, htaken⟩ := hu.taken
  have hc : t.committed.rest = text := h.committed
  refine ⟨hu.toRests, ?_⟩
  cases ht : t.taken with
  | nil =>
    rw [Tokenizer.committed, ht, h.ahead] at hc
    rw [Tokenizer.committed, htaken, ht]
    exact hp.trans (h.rest.symm.trans hc)
  | cons e es =>
    rw [Tokenizer.committed, ht] at hc
    rw [Tokenizer.committed, htaken, ht]
    exact hc

/-- The token is handed out again where the text would be read in another mode, if it stands there
in that mode too. -/
theorem Holds.replay (h : t.Holds text token rest)
    (hl : Lexes mode text token.kind token.literal rest operators) :
    t.replay.Poised mode text operators := by
  obtain ⟨place, hp, ht⟩ := h.taken
  refine .kept token place ?_ hp ?_
  · simp [Tokenizer.replay, ht, h.ahead]
  · have hrest : t.replay.cursor.rest = rest := h.rest
    rw [hrest]
    exact hl

theorem Poised.discard (h : t.Poised mode text operators) :
    t.discard.Poised mode text operators := by
  cases h with
  | unread h => exact .unread ⟨h.ahead, h.rest⟩
  | kept token place ahead place_eq lexes => exact .kept token place ahead place_eq lexes

end ConfigScript.Tokenizer
