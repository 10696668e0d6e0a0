import ConfigScript.Proofs.Token.Apart
import ConfigScript.Proofs.Token.Poised

/-! # Lines of words

In the modes of statements a word ends at a blank as well. Where a line ends, a tokenizer looks past
the break at the first token of the next line, and goes back to the break. -/

namespace ConfigScript

namespace Scan

open Text

variable {operators : OperatorTable} {mode : ReadMode} {rest : List Char}

/-- The text is over, or goes on with a blank or a character that ends words. -/
def Halts (r : WordRules) (rest : List Char) : Prop :=
  ∀ c ∈ rest.head?, isSpacing c = true ∨ r.stopsAt c = true

theorem halts_blank (r : WordRules) (rest : List Char) : Halts r (' ' :: rest) := by
  intro c hc
  rw [List.head?_cons, Option.mem_def, Option.some.injEq] at hc
  exact .inl (hc ▸ rfl)

theorem word_halts {r : WordRules} (hr : r.stopAtBlank = true) {s : List Char}
    (hs : ∀ c ∈ s, Solid c ∧ r.stopsAt c = false) (hrest : Halts r rest) (policy : UnicodePolicy)
    (pos : Nat) :
    word policy r none [] pos (s ++ rest) = ⟨s, false, ⟨pos + s.length, rest⟩, []⟩ := by
  induction s generalizing pos with
  | nil =>
    cases rest with
    | nil => simp [word]
    | cons c rest =>
      have hb : c ≠ '\\' := by
        rcases hrest c rfl with hc | hc
        · rintro rfl
          exact absurd hc (by decide)
        · exact (solid_of_stopsAt hc).backslash
      have hstop : (isSpacing c || startsComment (c :: rest) || r.stopsAt c
          || startsOperator none (c :: rest)) = true := by
        rcases hrest c rfl with hc | hc <;> simp [hc]
      rw [List.nil_append, word_cons hr hb, if_pos hstop]
      simp
  | cons c s ih =>
    obtain ⟨hsolid, hstop⟩ := hs c List.mem_cons_self
    rw [List.cons_append, word_cons hr hsolid.backslash,
      ih fun d hd => hs d (List.mem_cons_of_mem c hd)]
    simp [hsolid.spacing, startsComment_of_ne hsolid.slash, hstop, startsOperator, Nat.add_comm,
      Nat.add_left_comm]

theorem lexes_bare_halts (hr : (rulesOf mode).stopAtBlank = true)
    (hm : (rulesOf mode).stopAtEquals = false) (ho : mode ≠ .operation) {s : String}
    (hne : s.toList ≠ []) (hs : Bare s.toList) (hrest : Halts (rulesOf mode) rest) :
    Lexes mode (s.toList ++ rest) (wordKind false mode) (some s) rest operators :=
  lexes_wordKind hm ho hne hs fun policy pos => word_halts hr
    (fun c hc => ⟨solid_of_bareChar (hs c hc), stopsAt_of_bareChar (hs c hc) (.inl hm)⟩) hrest
    policy pos

theorem lexes_written_blank (hr : (rulesOf mode).stopAtBlank = true)
    (hm : (rulesOf mode).stopAtEquals = false) (ho : mode ≠ .operation) {s : String}
    {cs : List Char} (h : Written s cs) (rest : List Char) :
    ∃ kind : TokenKind, kind.holdsText = true
      ∧ Lexes mode (cs ++ ' ' :: rest) kind (some s) (' ' :: rest) operators := by
  cases h with
  | bare hne hs =>
    exact ⟨_, (holdsText_wordKind hm).1, lexes_bare_halts hr hm ho hne hs (halts_blank _ rest)⟩
  | quoted =>
    have hu : mode ≠ .unexpected := by
      rintro rfl
      simp [rulesOf] at hm
    have hl : Lexes mode ('"' :: s.toList.flatMap quoteChar ++ ['"'] ++ ' ' :: rest) .quoted
        (some s) (' ' :: rest) := by
      simpa using lexes_quoted hu s (' ' :: rest)
    exact ⟨.quoted, rfl, hl.known ho⟩

theorem lexes_plainWord {w : String} (hne : w.toList ≠ []) (hw : Bare w.toList)
    (hrest : Halts (rulesOf .plainWord) rest) :
    Lexes .plainWord (w.toList ++ rest) .plainWord (some w) rest operators :=
  lexes_bare_halts rfl rfl (by decide) hne hw hrest

theorem lexes_bare_unexpected_blank {w : List Char} (hne : w ≠ []) (hw : Bare w)
    (rest : List Char) :
    ∃ after, Lexes .unexpected (w ++ ' ' :: rest) .unexpected none after operators := by
  cases w with
  | nil => exact absurd rfl hne
  | cons c v =>
    have hc : BareChar c := hw c List.mem_cons_self
    have hsolid := solid_of_bareChar hc
    refine lexes_unexpected (by decide) (fun hb => ?_) ⟨hsolid.spacing, hsolid.backslash,
      startsComment_of_ne hsolid.slash _, sign?_bareChar (by decide) hc, ne_quotes hc⟩
    exact (hw _ (List.mem_cons_of_mem c hb)).ne (.inr (by decide)) rfl

theorem lexes_lineBreak (mode : ReadMode) (rest : List Char) :
    Lexes mode ('\n' :: rest) .lineBreak none rest operators :=
  lexes_sign rfl rest

end Scan

namespace Tokenizer

open Scan

variable {mode : ReadMode} {text rest more : List Char} {kind : TokenKind}
  {literal : Option String} {t u : Tokenizer} {operators operators' : OperatorTable}

theorem Poised.known (h : t.Poised mode text operators) (hm : mode ≠ .operation) :
    t.Poised mode text operators' := by
  cases h with
  | unread h => exact .unread h
  | kept token place ahead place_eq lexes =>
    exact .kept token place ahead place_eq (lexes.known hm)

/-- A line break has been handed out, and after it the first token of the next line. -/
structure Passed (more : List Char) (token : Token) (rest : List Char) (t : Tokenizer) : Prop
    extends t.Rests rest where
  taken : ∃ (lineBreak : Token) (place place' : Cursor), lineBreak.kind = .lineBreak
    ∧ place.rest = '\n' :: more ∧ place'.rest = more
    ∧ t.taken = [(lineBreak, place), (token, place')]

/-- The end of a line comes next, and `more` is the text after it. -/
inductive AtBreak (more : List Char) (t : Tokenizer) (operators : OperatorTable := {}) : Prop
  | poised (h : t.Poised .unexpected ('\n' :: more) operators)
  | kept (lineBreak token : Token) (place place' : Cursor) (kind_eq : lineBreak.kind = .lineBreak)
      (ahead : t.ahead = [(lineBreak, place), (token, place')]) (place_eq : place'.rest = more)
      (lexes : Lexes .unexpected more token.kind token.literal t.cursor.rest operators)

theorem next_true_eq {token : Token} (hk : token.kind = .lineBreak)
    (ha : t.advance mode operators = (token, u))
    (hb : (u.advance mode operators).1.kind ≠ .lineBreak) :
    t.next true mode operators = ((u.advance mode operators).1,
      { (u.advance mode operators).2 with lastStart := (u.advance mode operators).1.start }) := by
  have hpast : ∀ n, nextPastBreaks mode operators n u = u.advance mode operators := by
    intro n
    cases n with
    | zero => rfl
    | succ n => simp only [nextPastBreaks, if_neg hb]
  simp only [Tokenizer.next, if_true, remaining, nextPastBreaks, ha, hk, hpast]

theorem Since.next_past (h : t.Since text ('\n' :: more))
    (hl : Lexes mode more kind literal rest operators) (hk : kind ≠ .lineBreak)
    (hr : t.reports = []) :
    ∃ start, (t.next true mode operators).1 = ⟨kind, start, literal⟩
      ∧ (t.next true mode operators).2.Since text rest
      ∧ (t.next true mode operators).2.reports = [] := by
  have hp : t.Poised mode ('\n' :: more) operators := h.toRests.poised mode
  obtain ⟨start, htoken, hands⟩ := hp.advance (lexes_lineBreak mode more) hr
  obtain ⟨token, u, ha⟩ : ∃ token u, t.advance mode operators = (token, u) := ⟨_, _, rfl⟩
  rw [ha] at htoken hands
  obtain ⟨start', htoken', hands'⟩ := (hands.toRests.poised mode).advance hl hands.reports
  have hkind : token.kind = .lineBreak := by
    have htoken : token = ⟨.lineBreak, start, none⟩ := htoken
    rw [htoken]
  have hsince := (h.hands hands).hands hands'
  rw [next_true_eq hkind ha (by rw [htoken']; exact hk)]
  exact ⟨start', htoken', ⟨⟨hsince.ahead, hsince.rest⟩, hsince.committed⟩, hands'.reports⟩

theorem Poised.next_past (hp : t.Poised mode ('\n' :: more) operators)
    (hl : Lexes mode more kind literal rest operators) (hk : kind ≠ .lineBreak)
    (hr : t.reports = []) (ht : t.taken = []) :
    ∃ start, (t.next true mode operators).1 = ⟨kind, start, literal⟩
      ∧ (t.next true mode operators).2.Passed more (t.next true mode operators).1 rest
      ∧ (t.next true mode operators).2.reports = [] := by
  obtain ⟨start, htoken, hands⟩ := hp.advance (lexes_lineBreak mode more) hr
  obtain ⟨token, u, ha⟩ : ∃ token u, t.advance mode operators = (token, u) := ⟨_, _, rfl⟩
  rw [ha] at htoken hands
  obtain ⟨place, hplace, htaken⟩ := hands.taken
  obtain ⟨start', htoken', hands'⟩ := (hands.toRests.poised mode).advance hl hands.reports
  obtain ⟨place', hplace', htaken'⟩ := hands'.taken
  have hkind : token.kind = .lineBreak := by
    have htoken : token = ⟨.lineBreak, start, none⟩ := htoken
    rw [htoken]
  rw [next_true_eq hkind ha (by rw [htoken']; exact hk)]
  refine ⟨start', htoken', ⟨⟨hands'.ahead, hands'.rest⟩, ?_⟩, hands'.reports⟩
  refine ⟨token, place, place', hkind, hplace, hplace', ?_⟩
  simp only at htaken'
  rw [htaken', htaken, ht]
  rfl

theorem Passed.since {token : Token} (h : t.Passed more token rest) :
    t.Since ('\n' :: more) rest := by
  obtain ⟨lineBreak, place, place', -, hp, -, ht⟩ := h.taken
  refine ⟨h.toRests, ?_⟩
  rw [committed, ht]
  exact hp

theorem Passed.replay {token : Token} (h : t.Passed more token rest)
    (hl : Lexes .unexpected more token.kind token.literal rest operators) :
    t.replay.AtBreak more operators := by
  obtain ⟨lineBreak, place, place', hk, -, hp', ht⟩ := h.taken
  refine .kept lineBreak token place place' hk ?_ hp' ?_
  · simp [Tokenizer.replay, ht, h.ahead]
  · have hrest : t.replay.cursor.rest = rest := h.rest
    rw [hrest]
    exact hl

theorem AtBreak.known (h : t.AtBreak more operators) : t.AtBreak more operators' := by
  cases h with
  | poised h => exact .poised (h.known (by decide))
  | kept lineBreak token place place' kind_eq ahead place_eq lexes =>
    exact .kept lineBreak token place place' kind_eq ahead place_eq (lexes.known (by decide))

theorem AtBreak.discard (h : t.AtBreak more operators) : t.discard.AtBreak more operators := by
  cases h with
  | poised h => exact .poised h.discard
  | kept lineBreak token place place' kind_eq ahead place_eq lexes =>
    exact .kept lineBreak token place place' kind_eq ahead place_eq lexes

theorem AtBreak.next (h : t.AtBreak more operators) (hr : t.reports = []) :
    (t.next false .unexpected operators).1.kind = .lineBreak
      ∧ (t.next false .unexpected operators).2.Poised .unexpected more operators
      ∧ (t.next false .unexpected operators).2.reports = [] := by
  cases h with
  | poised h =>
    obtain ⟨start, htoken, hands⟩ := h.next (lexes_lineBreak _ more) hr
      fun hb : false = true => absurd hb Bool.false_ne_true
    rw [htoken] at hands ⊢
    exact ⟨rfl, hands.toRests.poised _, hands.reports⟩
  | kept lineBreak token place place' kind_eq ahead place_eq lexes =>
    simp only [Tokenizer.next, Tokenizer.advance, ahead, Bool.false_eq_true, if_false]
    exact ⟨kind_eq, .kept token place' rfl place_eq lexes, hr⟩

end Tokenizer

end ConfigScript
