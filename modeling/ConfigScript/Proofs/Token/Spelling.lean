import ConfigScript.Proofs.Token.ReadBack

/-! # What text starts with

The token at the start of a text, in the modes in which values are read, when no operator is known.
The token does not depend on where the text stands, nor on what becomes of invalid escapes. -/

namespace ConfigScript

/-- Kinds of tokens that carry the text of a value, a key or a name. -/
def TokenKind.holdsText : TokenKind → Bool
  | .word => true
  | .plainWord => true
  | .key => true
  | .macroName => true
  | .quoted => true
  | .value => true
  | .number => true
  | _ => false

theorem TokenKind.ne_of_holdsText {k l : TokenKind} (hk : k.holdsText = true)
    (hl : l.holdsText = false) : k ≠ l := by
  rintro rfl
  exact absurd (hk.symm.trans hl) (by decide)

namespace Scan

open ConfigScript.Text

/-- The lexeme is a token, after which `rest` stands, and nothing is reported. -/
structure Lexeme.Is (l : Lexeme) (kind : TokenKind) (literal : Option String) (rest : List Char) :
    Prop where
  token : ∃ start, l.token = ⟨kind, start, literal⟩
  after : l.after.rest = rest
  reports : l.reports = []

/-- In a mode, the text starts with a token, and `rest` is what follows. Where no operators are
given, none is known. -/
def Lexes (mode : ReadMode) (text : List Char) (kind : TokenKind) (literal : Option String)
    (rest : List Char) (operators : OperatorTable := {}) : Prop :=
  ∀ policy pos, (next policy mode operators ⟨pos, text⟩).Is kind literal rest

variable {operators : OperatorTable}

theorem skipBlank_none {c : Char} {cs : List Char} (hs : isSpacing c = false) (hb : c ≠ '\\')
    (hk : afterComment? (c :: cs) = none) (pos : Nat) :
    skipBlank pos (c :: cs) = (⟨pos, c :: cs⟩, []) :=
  skipBlank_stop (Bool.eq_false_iff.mp hs) (by simp [hb]) hk

theorem skipBlank_solid {c : Char} (h : Solid c) (pos : Nat) (cs : List Char) :
    skipBlank pos (c :: cs) = (⟨pos, c :: cs⟩, []) :=
  skipBlank_none h.spacing h.backslash (h.afterComment? cs) pos

theorem next_solid {c : Char} (h : Solid c) (policy : UnicodePolicy) (mode : ReadMode)
    (operators : OperatorTable) (pos : Nat) (cs : List Char) :
    next policy mode operators ⟨pos, c :: cs⟩ = lexeme policy mode operators ⟨pos, c :: cs⟩ := by
  simp [next, skipBlank_solid h]

theorem lexes_end (mode : ReadMode) : Lexes mode [] .endOfFile none [] operators := by
  intro policy pos
  have h : next policy mode operators ⟨pos, []⟩ = ⟨.sign .endOfFile pos, ⟨pos, []⟩, []⟩ := by
    simp [next, skipBlank, lexeme]
  rw [h]
  exact ⟨⟨pos, rfl⟩, rfl, rfl⟩

/-! ## Signs -/

theorem solid_of_sign? {mode : ReadMode} {c : Char} {kind : TokenKind}
    (h : sign? mode c = some kind) : Solid c := by
  unfold sign? at h
  split at h
  all_goals first
    | exact ⟨by decide, by decide, by decide⟩
    | simp at h

theorem lexes_sign {mode : ReadMode} {c : Char} {kind : TokenKind} (h : sign? mode c = some kind)
    (rest : List Char) : Lexes mode (c :: rest) kind none rest operators := by
  intro policy pos
  rw [next_solid (solid_of_sign? h)]
  simp only [lexeme, h]
  exact ⟨⟨pos, rfl⟩, rfl, rfl⟩

/-! ## Literals -/

theorem sign?_quote (mode : ReadMode) : sign? mode '"' = none := by
  simp [sign?]

theorem solid_quote : Solid '"' := ⟨by decide, by decide, by decide⟩

theorem lexes_quoted {mode : ReadMode} (hm : mode ≠ .unexpected) (s : String) (rest : List Char) :
    Lexes mode ('"' :: (s.toList.flatMap quoteChar ++ '"' :: rest)) .quoted (some s) rest := by
  intro policy pos
  obtain ⟨ht, ha, hr⟩ := quoted_quoteChar policy pos (pos + 1) s.toList rest
  rw [next_solid solid_quote]
  simp only [lexeme, sign?_quote, hm, beq_self_eq_true, Bool.true_or, if_true, if_false,
    List.drop_one, List.tail_cons]
  refine ⟨⟨pos, ?_⟩, ha, hr⟩
  rw [ht, Token.ofLiteral, String.ofList_toList]

theorem lexes_quoted_unexpected (s : String) (rest : List Char) :
    Lexes .unexpected ('"' :: (s.toList.flatMap quoteChar ++ '"' :: rest)) .unexpected none
      rest := by
  intro policy pos
  obtain ⟨ht, ha, hr⟩ := quoted_quoteChar policy pos (pos + 1) s.toList rest
  rw [next_solid solid_quote]
  simp only [lexeme, sign?_quote, beq_self_eq_true, Bool.true_or, if_true, List.drop_one,
    List.tail_cons]
  exact ⟨⟨pos, rfl⟩, ha, hr⟩

theorem sign?_bareChar {mode : ReadMode} (hm : mode ≠ .paramName) {c : Char} (h : BareChar c) :
    sign? mode c = none := by
  have hc := not_mem_separators h
  unfold sign?
  split
  all_goals first
    | exact absurd (by decide) hc
    | exact if_neg hm
    | rfl

theorem ne_quotes {c : Char} (h : BareChar c) : (c == '"' || c == '\'') = false := by
  have hd : c ≠ '"' := h.ne (.inr (by decide))
  have hs : c ≠ '\'' := h.ne (.inr (by decide))
  simp [hd, hs]

theorem holdsText_wordKind {mode : ReadMode} (hm : (rulesOf mode).stopAtEquals = false) :
    (wordKind false mode).holdsText = true ∧ wordKind false mode ≠ .quoted := by
  cases mode <;> simp_all [rulesOf, wordKind, TokenKind.holdsText]

theorem word_bare (policy : UnicodePolicy) (mode : ReadMode)
    (hm : (rulesOf mode).stopAtEquals = false) {operators : Option OperatorTable}
    (ho : ∀ cs, startsOperator operators cs = false) {s rest : List Char}
    (hs : ∀ c ∈ s, BareChar c) (hrest : Ends (rulesOf mode) rest) (pos : Nat) :
    word policy (rulesOf mode) operators [] pos (s ++ rest)
      = ⟨s, false, ⟨pos + s.length, rest⟩, []⟩ :=
  word_solid policy ho
    (fun c hc => ⟨solid_of_bareChar (hs c hc), stopsAt_of_bareChar (hs c hc) (.inl hm)⟩) hrest pos

/-- A bare word is a term: a number if it looks like one, and else a word. -/
theorem term_bare {s : String} {rest : List Char} (hs : ∀ c ∈ s.toList, BareChar c)
    (hrest : Ends (rulesOf .operation) rest) :
    ∃ kind : TokenKind, (kind.holdsText = true ∧ kind ≠ .quoted) ∧ ∀ policy pos,
      (term policy {} ⟨pos, s.toList ++ rest⟩).Is kind (some s) rest := by
  unfold term
  simp only [longestMatch?_empty]
  cases hd : numberLiteral? {} (s.toList ++ rest) with
  | some digits =>
    have he : digits = s.toList := numberLiteral?_bare hs hrest hd
    subst he
    refine ⟨.number, by decide, fun policy pos => ⟨⟨pos, ?_⟩, ?_, rfl⟩⟩
    · simp only [Token.ofLiteral, String.ofList_toList]
    · simp [Cursor.advance]
  | none =>
    have ho : ∀ cs, startsOperator (some {}) cs = false := fun cs => rfl
    have hk : ({} : OperatorTable).isKeyword s = false := rfl
    refine ⟨.word, by decide, fun policy pos => ?_⟩
    simp only [word_bare policy .operation rfl ho hs hrest pos, String.ofList_toList, hk,
      Bool.and_false, Bool.false_eq_true, if_false]
    refine ⟨⟨pos, ?_⟩, rfl, rfl⟩
    rw [Token.ofLiteral, String.ofList_toList]

theorem lexes_wordKind {mode : ReadMode} (hm : (rulesOf mode).stopAtEquals = false)
    (ho : mode ≠ .operation) {s : String} {rest : List Char} (hne : s.toList ≠ [])
    (hs : ∀ c ∈ s.toList, BareChar c)
    (hword : ∀ policy pos, word policy (rulesOf mode) none [] pos (s.toList ++ rest)
      = ⟨s.toList, false, ⟨pos + s.toList.length, rest⟩, []⟩) :
    Lexes mode (s.toList ++ rest) (wordKind false mode) (some s) rest operators := by
  have hp : mode ≠ .paramName := by
    rintro rfl
    simp [rulesOf] at hm
  have hu : mode ≠ .unexpected := by
    rintro rfl
    simp [rulesOf] at hm
  intro policy pos
  have hw := hword policy pos
  cases he : s.toList with
  | nil => exact absurd he hne
  | cons c cs =>
    have hc : BareChar c := hs c (by rw [he]; exact List.mem_cons_self)
    rw [he, List.cons_append] at hw
    rw [List.cons_append, next_solid (solid_of_bareChar hc)]
    simp only [lexeme, sign?_bareChar hp hc, ne_quotes hc, hu, ho, hw, Bool.false_eq_true, if_false]
    refine ⟨⟨pos, ?_⟩, rfl, rfl⟩
    rw [Token.ofLiteral, ← he, String.ofList_toList]

theorem lexes_bare {mode : ReadMode} (hm : (rulesOf mode).stopAtEquals = false) {s : String}
    {rest : List Char} (hne : s.toList ≠ []) (hs : ∀ c ∈ s.toList, BareChar c)
    (hrest : Ends (rulesOf mode) rest) :
    ∃ kind : TokenKind, (kind.holdsText = true ∧ kind ≠ .quoted)
      ∧ Lexes mode (s.toList ++ rest) kind (some s) rest := by
  by_cases ho : mode = .operation
  · subst ho
    obtain ⟨kind, hk, ht⟩ := term_bare hs hrest
    refine ⟨kind, hk, fun policy pos => ?_⟩
    cases he : s.toList with
    | nil => exact absurd he hne
    | cons c cs =>
      have hc : BareChar c := hs c (by rw [he]; exact List.mem_cons_self)
      have hterm := ht policy pos
      rw [he, List.cons_append] at hterm
      rw [List.cons_append, next_solid (solid_of_bareChar hc)]
      simpa only [lexeme, sign?_bareChar (by decide : ReadMode.operation ≠ .paramName) hc,
        ne_quotes hc, Bool.false_eq_true, if_false, if_true] using hterm
  · refine ⟨wordKind false mode, holdsText_wordKind hm, lexes_wordKind hm ho hne hs ?_⟩
    exact fun policy pos => word_bare policy mode hm (fun _ => rfl) hs hrest pos

/-- A literal is read back in every mode whose words go past an equals sign. -/
theorem lexes_written (mode : ReadMode) (hm : (rulesOf mode).stopAtEquals = false) {s : String}
    {cs rest : List Char} (h : Written s cs) (hrest : Ends (rulesOf mode) rest) :
    ∃ kind : TokenKind, kind.holdsText = true ∧ Lexes mode (cs ++ rest) kind (some s) rest := by
  cases h with
  | bare hne hs =>
    obtain ⟨kind, hk, hl⟩ := lexes_bare hm hne hs hrest
    exact ⟨kind, hk.1, hl⟩
  | quoted =>
    have hu : mode ≠ .unexpected := by
      rintro rfl
      simp [rulesOf] at hm
    refine ⟨.quoted, rfl, ?_⟩
    simpa using lexes_quoted hu s rest

theorem Lexes.known {mode : ReadMode} {text rest : List Char} {kind : TokenKind}
    {literal : Option String} {operators' : OperatorTable}
    (h : Lexes mode text kind literal rest operators) (hm : mode ≠ .operation) :
    Lexes mode text kind literal rest operators' := by
  intro policy pos
  have hnext :
      next policy mode operators' ⟨pos, text⟩ = next policy mode operators ⟨pos, text⟩ := by
    simp only [next, lexeme, hm, if_false]
  rw [hnext]
  exact h policy pos

theorem lexes_unique {mode : ReadMode} {text rest rest' : List Char} {kind kind' : TokenKind}
    {literal literal' : Option String} (h : Lexes mode text kind literal rest operators)
    (g : Lexes mode text kind' literal' rest' operators) :
    kind' = kind ∧ literal' = literal ∧ rest' = rest := by
  have hl := h .error 0
  have gl := g .error 0
  obtain ⟨start, hs⟩ := hl.token
  obtain ⟨start', gs⟩ := gl.token
  rw [hs] at gs
  simp only [Token.mk.injEq] at gs
  exact ⟨gs.1.symm, gs.2.2.symm, gl.after.symm.trans hl.after⟩

theorem lexes_quoted_again {mode mode' : ReadMode} (hm : (rulesOf mode).stopAtEquals = false)
    {s : String} {cs rest after : List Char} {literal : Option String} (h : Written s cs)
    (hrest : Ends (rulesOf mode) rest) (hl : Lexes mode (cs ++ rest) .quoted literal after)
    (hu : mode' ≠ .unexpected) : Lexes mode' (cs ++ rest) .quoted (some s) rest := by
  cases h with
  | bare hne hs =>
    obtain ⟨kind, hk, hb⟩ := lexes_bare hm hne hs hrest
    exact absurd (lexes_unique hl hb).1 hk.2
  | quoted => simpa using lexes_quoted hu s rest

theorem exists_split_equals {s rest : List Char} (hrest : Ends (rulesOf .unexpected) rest) :
    ∃ us vs, s = us ++ vs ∧ (∀ c ∈ us, c ≠ '=') ∧ Ends (rulesOf .unexpected) (vs ++ rest) := by
  induction s with
  | nil => exact ⟨[], [], rfl, by simp, hrest⟩
  | cons c s ih =>
    by_cases hc : c = '='
    · subst hc
      refine ⟨[], '=' :: s, rfl, by simp, fun d hd => ?_⟩
      simp only [List.cons_append, List.head?_cons, Option.mem_def, Option.some.injEq] at hd
      subst hd
      rfl
    · obtain ⟨us, vs, rfl, hus, hvs⟩ := ih
      exact ⟨c :: us, vs, rfl, by simpa [hc] using hus, hvs⟩

theorem lexes_bare_unexpected {s rest : List Char} (hne : s ≠ []) (hs : ∀ c ∈ s, BareChar c)
    (hrest : Ends (rulesOf .unexpected) rest) :
    ∃ after, Lexes .unexpected (s ++ rest) .unexpected none after := by
  obtain ⟨us, vs, rfl, hus, hvs⟩ := exists_split_equals (s := s) hrest
  have hall : ∀ c ∈ us, Solid c ∧ (rulesOf .unexpected).stopsAt c = false := by
    intro c hc
    have hb := hs c (List.mem_append_left vs hc)
    exact ⟨solid_of_bareChar hb, stopsAt_of_bareChar hb (.inr (hus c hc))⟩
  cases hw : us ++ vs with
  | nil => exact absurd hw hne
  | cons c cs =>
    have hc : BareChar c := hs c (by rw [hw]; exact List.mem_cons_self)
    have hsplit : c :: (cs ++ rest) = us ++ (vs ++ rest) := by
      rw [← List.append_assoc, hw, List.cons_append]
    refine ⟨if us = [] then cs ++ rest else vs ++ rest, fun policy pos => ?_⟩
    have ho : ∀ cs, startsOperator none cs = false := fun cs => rfl
    have hword := word_solid policy ho hall hvs pos
    rw [← hsplit] at hword
    rw [List.cons_append, next_solid (solid_of_bareChar hc)]
    simp only [lexeme, sign?_bareChar (by decide : ReadMode.unexpected ≠ .paramName) hc,
      ne_quotes hc, hword, Bool.false_eq_true, if_false, if_true]
    refine ⟨⟨pos, rfl⟩, ?_, rfl⟩
    cases us with
    | nil => simp [Cursor.advance]
    | cons u us => simp

theorem lexes_written_unexpected {s : String} {cs rest : List Char} (h : Written s cs)
    (hrest : Ends (rulesOf .unexpected) rest) :
    ∃ after, Lexes .unexpected (cs ++ rest) .unexpected none after := by
  cases h with
  | bare hne hs => exact lexes_bare_unexpected hne hs hrest
  | quoted => exact ⟨rest, by simpa using lexes_quoted_unexpected s rest⟩

end Scan

end ConfigScript
