import ConfigScript.Proofs.Operator.Valid
import ConfigScript.Proofs.Token.Cursor

/-! # Tokens take text

Where a token ends, and that only the end of the file takes nothing. -/

namespace ConfigScript

namespace Scan

open Cursor

/-! ## Numbers -/

theorem takeDigits_append (cs : List Char) :
    (Number.takeDigits cs).1 ++ (Number.takeDigits cs).2 = cs :=
  List.takeWhile_append_dropWhile

theorem takeFraction_append (cs : List Char) : (takeFraction cs).1 ++ (takeFraction cs).2 = cs := by
  unfold takeFraction
  split
  · rename_i cs
    have h := takeDigits_append cs
    split
    · rfl
    · rename_i digits rest _ he
      rw [he] at h
      exact congrArg ('.' :: ·) h
  · rfl

theorem takeSignText_append (cs : List Char) : (takeSignText cs).1 ++ (takeSignText cs).2 = cs := by
  unfold takeSignText
  split <;> rfl

theorem takeExponent_append (cs : List Char) : (takeExponent cs).1 ++ (takeExponent cs).2 = cs := by
  unfold takeExponent
  split
  · rename_i e rest
    split
    · have hs := takeSignText_append rest
      have hd := takeDigits_append (takeSignText rest).2
      simp only
      split
      · rfl
      · rename_i digits rest' _ he
        rw [he] at hd
        simp only at hd
        simp only [List.cons_append, List.append_assoc, hd, hs]
    · rfl
  · rfl

theorem numberLiteral?_stands {operators : OperatorTable} {cs digits : List Char}
    (h : numberLiteral? operators cs = some digits) : digits <+: cs ∧ digits ≠ [] := by
  unfold numberLiteral? at h
  simp only at h
  split at h
  · simp at h
  · rename_i hw
    simp only [Option.some.injEq] at h
    subst h
    have h₁ := takeDigits_append cs
    have h₂ := takeFraction_append (Number.takeDigits cs).2
    have h₃ := takeExponent_append (takeFraction (Number.takeDigits cs).2).2
    constructor
    · refine ⟨(takeExponent (takeFraction (Number.takeDigits cs).2).2).2, ?_⟩
      rw [List.append_assoc, h₃, List.append_assoc, h₂, h₁]
    · intro he
      simp only [List.append_eq_nil_iff] at he
      simp [he.1.1] at hw

/-! ## Lexemes -/

theorem stopsAt_rulesOf {mode : ReadMode} {c : Char} (hm : mode ≠ .unexpected)
    (h : sign? mode c = none) : (rulesOf mode).stopsAt c = false := by
  rw [← Bool.not_eq_true]
  intro hs
  simp only [WordRules.stopsAt, Bool.or_eq_true, Bool.and_eq_true, List.contains_eq_mem,
    decide_eq_true_eq, List.mem_cons, List.not_mem_nil, or_false, beq_iff_eq] at hs
  rcases hs with ((hc | ⟨hb, hc⟩) | ⟨hb, rfl⟩) | ⟨hb, rfl⟩
  · rcases hc with rfl | rfl | rfl | rfl <;> simp [sign?] at h
  · rcases hc with rfl | rfl | rfl | rfl <;> cases mode <;> simp [sign?, rulesOf] at h hb
  · cases mode <;> simp [sign?, rulesOf] at h hb
  · cases mode <;> simp_all [sign?, rulesOf]

theorem term_reaches (policy : UnicodePolicy) (operators : OperatorTable) (c : Cursor) :
    c.Reaches (term policy operators c).after := by
  unfold term
  split
  · rename_i n hn
    exact reaches_drop c.pos n c.rest (OperatorTable.longestMatch?_le hn)
  · split
    · rename_i digits hd
      exact reaches_drop c.pos _ c.rest (numberLiteral?_stands hd).1.length_le
    · exact word_reaches policy _ _ [] c.pos c.rest

theorem term_length_lt (policy : UnicodePolicy) {operators : OperatorTable} (ho : operators.Spelled)
    {pos : Nat} {ch : Char} {rest : List Char} (hs : isSpacing ch = false)
    (hk : afterComment? (ch :: rest) = none) (hg : sign? .operation ch = none) :
    (term policy operators ⟨pos, ch :: rest⟩).after.rest.length < rest.length + 1 := by
  unfold term
  split
  · rename_i n hn
    have hpos := ho.longestMatch?_pos hn
    have hle := OperatorTable.longestMatch?_le hn
    simp only [advance, List.length_drop, List.length_cons] at hle ⊢
    omega
  · rename_i hn
    split
    · rename_i digits hd
      obtain ⟨hp, hne⟩ := numberLiteral?_stands hd
      have hpos := List.length_pos_iff.mpr hne
      have hle := hp.length_le
      simp only [advance, List.length_drop, List.length_cons] at hle ⊢
      omega
    · exact word_length_lt policy [] pos hs hk (stopsAt_rulesOf (by decide) hg)
        (by simp [startsOperator, hn])

theorem lexeme_start (policy : UnicodePolicy) (mode : ReadMode) (operators : OperatorTable)
    (c : Cursor) : (lexeme policy mode operators c).token.start = c.pos := by
  unfold lexeme
  split
  · rfl
  · split
    · rfl
    · split
      · simp only
        split <;> rfl
      · split
        · unfold term
          split
          · rfl
          · split <;> rfl
        · simp only
          split <;> rfl

theorem lexeme_reaches (policy : UnicodePolicy) (mode : ReadMode) (operators : OperatorTable)
    (c : Cursor) : c.Reaches (lexeme policy mode operators c).after := by
  obtain ⟨pos, rest⟩ := c
  unfold lexeme
  split
  · exact .refl _
  · rename_i ch cs hc
    simp only at hc
    subst hc
    have hone : Reaches ⟨pos, ch :: cs⟩ (advance ⟨pos, ch :: cs⟩ 1) := reaches_cons pos ch cs
    split
    · exact hone
    · split
      · exact hone.trans (quoted_reaches policy ch pos (pos + 1) cs)
      · split
        · exact term_reaches policy operators _
        · have hw := word_reaches policy (rulesOf mode) none [] pos (ch :: cs)
          split
          · simp only
            split
            · exact hone
            · exact hw
          · exact hw

theorem lexeme_length_lt (policy : UnicodePolicy) (mode : ReadMode) {operators : OperatorTable}
    (ho : operators.Spelled) (pos : Nat) {ch : Char} {rest : List Char} (hs : isSpacing ch = false)
    (hk : afterComment? (ch :: rest) = none) :
    (lexeme policy mode operators ⟨pos, ch :: rest⟩).after.rest.length < rest.length + 1 := by
  unfold lexeme
  simp only
  split
  · simp [advance]
  · rename_i hg
    split
    · have h := (quoted_reaches policy ch pos (pos + 1) rest).length_le
      simp only [List.drop_one, List.tail_cons] at h ⊢
      omega
    · split
      · rename_i hm
        exact term_length_lt policy ho hs hk (hm ▸ hg)
      · split
        · rename_i hm
          simp only
          split
          · simp [advance]
          · rename_i hp
            -- the word has moved, and a place that moved has less left
            have hr := word_reaches policy (rulesOf mode) none [] pos (ch :: rest)
            have h := hr.pos_add
            obtain ⟨us, -, hu⟩ := hr
            simp only [List.length_cons] at h hu ⊢
            omega
        · rename_i hm
          exact word_length_lt policy [] pos hs hk (stopsAt_rulesOf hm hg) rfl

theorem sign?_ne_endOfFile {mode : ReadMode} {c : Char} {kind : TokenKind}
    (h : sign? mode c = some kind) : kind ≠ .endOfFile := by
  rintro rfl
  unfold sign? at h
  split at h <;> simp at h

theorem wordKind_ne_endOfFile (escaped : Bool) (mode : ReadMode) :
    wordKind escaped mode ≠ .endOfFile := by
  cases mode <;> cases escaped <;> decide

theorem term_kind_ne (policy : UnicodePolicy) (operators : OperatorTable) (c : Cursor) :
    (term policy operators c).token.kind ≠ .endOfFile := by
  unfold term
  split
  · simp [Token.ofLiteral]
  · split
    · simp [Token.ofLiteral]
    · simp only [Token.ofLiteral]
      split <;> decide

theorem lexeme_kind_ne (policy : UnicodePolicy) (mode : ReadMode) (operators : OperatorTable)
    (pos : Nat) (ch : Char) (rest : List Char) :
    (lexeme policy mode operators ⟨pos, ch :: rest⟩).token.kind ≠ .endOfFile := by
  unfold lexeme
  simp only
  split
  · rename_i hg
    exact sign?_ne_endOfFile hg
  · split
    · simp only
      split <;> simp [Token.sign, Token.ofLiteral]
    · split
      · exact term_kind_ne policy operators _
      · split
        · simp [Token.sign]
        · exact wordKind_ne_endOfFile _ mode

/-! ## Tokens after blanks -/

theorem next_token (policy : UnicodePolicy) (mode : ReadMode) (operators : OperatorTable)
    (c : Cursor) : (next policy mode operators c).token =
      (lexeme policy mode operators (skipBlank c.pos c.rest).1).token := rfl

theorem next_after (policy : UnicodePolicy) (mode : ReadMode) (operators : OperatorTable)
    (c : Cursor) : (next policy mode operators c).after =
      (lexeme policy mode operators (skipBlank c.pos c.rest).1).after := rfl

theorem next_reaches (policy : UnicodePolicy) (mode : ReadMode) (operators : OperatorTable)
    (c : Cursor) : c.Reaches (next policy mode operators c).after :=
  (skipBlank_reaches c.pos c.rest).trans (lexeme_reaches policy mode operators _)

theorem next_start (policy : UnicodePolicy) (mode : ReadMode) (operators : OperatorTable)
    (c : Cursor) :
    (next policy mode operators c).token.start = (skipBlank c.pos c.rest).1.pos :=
  lexeme_start policy mode operators _

/-- Every token but the end of the file takes text, beyond the blanks before it. -/
theorem next_start_lt (policy : UnicodePolicy) (mode : ReadMode) {operators : OperatorTable}
    (ho : operators.Spelled) {c : Cursor}
    (h : (next policy mode operators c).token.kind ≠ .endOfFile) :
    (next policy mode operators c).token.start < (next policy mode operators c).after.pos := by
  have hstop := @skipBlank_stops c.pos c.rest
  rw [next_token] at h
  rw [next_start, next_after]
  generalize (skipBlank c.pos c.rest).1 = d at h hstop ⊢
  obtain ⟨pos, _ | ⟨ch, rest⟩⟩ := d
  · simp [lexeme, Token.sign] at h
  · obtain ⟨hs, hk⟩ := hstop rfl
    have hl := lexeme_length_lt policy mode ho pos hs hk
    have hp := (lexeme_reaches policy mode operators ⟨pos, ch :: rest⟩).pos_add
    simp only [List.length_cons] at hp ⊢
    omega

theorem next_length_lt (policy : UnicodePolicy) (mode : ReadMode) {operators : OperatorTable}
    (ho : operators.Spelled) {c : Cursor}
    (h : (next policy mode operators c).token.kind ≠ .endOfFile) :
    (next policy mode operators c).after.rest.length < c.rest.length := by
  have hlt := next_start_lt policy mode ho h
  have hb := (skipBlank_reaches c.pos c.rest).length_le
  have hp := (lexeme_reaches policy mode operators (skipBlank c.pos c.rest).1).pos_add
  rw [next_start] at hlt
  rw [next_after] at hlt ⊢
  simp only at hb
  omega

theorem lexeme_nil (policy : UnicodePolicy) (mode : ReadMode) (operators : OperatorTable)
    {c : Cursor} (h : c.rest = []) :
    lexeme policy mode operators c = ⟨.sign .endOfFile c.pos, c, []⟩ := by
  unfold lexeme
  rw [h]

theorem next_endOfFile_iff (policy : UnicodePolicy) (mode : ReadMode) (operators : OperatorTable)
    (c : Cursor) : (next policy mode operators c).token.kind = .endOfFile
      ↔ (skipBlank c.pos c.rest).1.rest = [] := by
  rw [next_token]
  generalize (skipBlank c.pos c.rest).1 = d
  constructor
  · intro h
    obtain ⟨pos, _ | ⟨ch, rest⟩⟩ := d
    · rfl
    · exact absurd h (lexeme_kind_ne policy mode operators pos ch rest)
  · intro h
    rw [lexeme_nil policy mode operators h]
    rfl

theorem next_of_endOfFile (policy : UnicodePolicy) (mode : ReadMode)
    (operators : OperatorTable) {c : Cursor}
    (h : (next policy mode operators c).token.kind = .endOfFile) :
    (next policy mode operators c).after.rest = []
      ∧ (next policy mode operators c).token.isLiteral = false := by
  have hrest := (next_endOfFile_iff policy mode operators c).mp h
  rw [next_after, next_token, lexeme_nil policy mode operators hrest]
  exact ⟨hrest, rfl⟩

end Scan

end ConfigScript
