import ConfigScript.Parser.Recovery
import ConfigScript.Proofs.Node.Written
import ConfigScript.Proofs.Parser.Quiet
import ConfigScript.Proofs.Token.Lines

/-! # Where values start and end

The text of a value starts with a literal or with a bracket. Where the parser looks ahead with
structure alone expected, it goes back to a literal and keeps a bracket, and in either case stands
before the value again. -/

namespace ConfigScript.Parser

open Scan Text Node

variable {β : Type} {root : List Node} {s : ParserState} {mode : ReadMode} {text rest : List Char}
  {Q : β → ParserState → Prop}

/-! ## After a literal -/

/-- Line breaks, brackets and commas. -/
def delimiters : List Char := ['\n', '{', '}', ',', '(', ')', '[', ']']

/-- The text is over, or goes on with a delimiter. -/
def Delimited (rest : List Char) : Prop := ∀ c ∈ rest.head?, c ∈ delimiters

theorem ends_of_delimited (hm : (rulesOf mode).stopAtBracket = true) (h : Delimited rest) :
    Ends (rulesOf mode) rest := by
  intro c hc
  have hd := h c hc
  simp only [delimiters, List.mem_cons, List.not_mem_nil, or_false] at hd
  simp only [WordRules.stopsAt, hm, List.contains_eq_mem, List.mem_cons, List.not_mem_nil,
    or_false, Bool.or_eq_true, decide_eq_true_eq, Bool.true_and]
  grind

/-- With structure alone expected, the next token; past a line break where those are skipped. -/
inductive Sees (skipBreaks : Bool) (kind : TokenKind) (literal : Option String)
    (after : List Char) (operators : OperatorTable := {}) : List Char → Prop
  | here {text : List Char} (lexes : Lexes .unexpected text kind literal after operators)
      (stays : skipBreaks = true → kind ≠ .lineBreak) : Sees _ _ _ _ _ text
  | past {more : List Char} (skips : skipBreaks = true)
      (lexes : Lexes .unexpected more kind literal after operators) (stays : kind ≠ .lineBreak) :
      Sees _ _ _ _ _ ('\n' :: more)

theorem Yields.next_sees {f : Token → Parser β} {skipBreaks : Bool} {kind : TokenKind}
    {literal : Option String} {after : List Char} {operators : OperatorTable}
    (hq : Quiet root s operators) (hs : s.tokenizer.Since text rest)
    (h : Sees skipBreaks kind literal after operators rest)
    (hf : ∀ start t, Quiet root t operators → t.tokenizer.Since text after →
      Yields (f ⟨kind, start, literal⟩) t Q) :
    Yields (next skipBreaks .unexpected >>= f) s Q := by
  cases h with
  | here lexes stays =>
    exact Yields.next_hand hq (hs.toRests.poised .unexpected) lexes stays
      fun start t hqt ht => hf start t hqt (hs.hands ht)
  | past skips lexes stays =>
    subst skips
    obtain ⟨start, htoken, hsince, hreports⟩ := hs.next_past lexes stays hq.queued
    refine Yields.next_quiet hq hreports fun t hqt ht => ?_
    rw [htoken]
    exact hf start t hqt (ht ▸ hsince)

/-- What may follow a value: a delimiter, and no bracket that would open a collection with the value
as its name. -/
structure Follow (inOperation : Bool) (rest : List Char) : Prop where
  delimited : Delimited rest
  sees : ∃ kind literal after, Sees inOperation kind literal after {} rest
    ∧ isOpening kind = false

theorem follow_nil (inOperation : Bool) : Follow inOperation [] :=
  ⟨by simp [Delimited], .endOfFile, none, [], .here (lexes_end _) (by simp), rfl⟩

theorem delimited_cons {c : Char} (hc : c ∈ delimiters) (rest : List Char) :
    Delimited (c :: rest) := by
  intro d hd
  simp only [List.head?_cons, Option.mem_def, Option.some.injEq] at hd
  exact hd ▸ hc

theorem follow_cons {inOperation : Bool} {c : Char} (hc : c ∈ ['}', ',', ')', ']'])
    (rest : List Char) : Follow inOperation (c :: rest) := by
  have hsub : ['}', ',', ')', ']'] ⊆ delimiters := by simp [delimiters]
  refine ⟨delimited_cons (hsub hc) rest, ?_⟩
  simp only [List.mem_cons, List.not_mem_nil, or_false] at hc
  rcases hc with rfl | rfl | rfl | rfl
  · exact ⟨.rightBrace, none, rest, .here (lexes_sign rfl rest) (by simp), rfl⟩
  · exact ⟨.comma, none, rest, .here (lexes_sign rfl rest) (by simp), rfl⟩
  · exact ⟨.rightParen, none, rest, .here (lexes_sign rfl rest) (by simp), rfl⟩
  · exact ⟨.rightBracket, none, rest, .here (lexes_sign rfl rest) (by simp), rfl⟩

theorem follow_lineBreak (rest : List Char) : Follow false ('\n' :: rest) :=
  ⟨delimited_cons (by decide) rest, .lineBreak, none, rest, .here (lexes_sign rfl rest) (by simp),
    rfl⟩

/-! ## Starts of values -/

/-- A literal of a word, or a bracket that is a sign in every mode but for keys. -/
inductive Starts (word : String) (text : List Char) : Prop
  | literal (cs rest : List Char) (text_eq : text = cs ++ rest) (written : Written word cs)
      (delimited : Delimited rest)
  | opening (kind : TokenKind) (rest : List Char) (opens : isOpening kind = true)
      (lexes : ∀ mode, mode ≠ .key → Lexes mode text kind none rest)

theorem lexes_leftBrace (mode : ReadMode) (rest : List Char) :
    Lexes mode ('{' :: rest) .leftBrace none rest :=
  lexes_sign rfl rest

theorem lexes_leftParen (hm : mode ≠ .key) (rest : List Char) :
    Lexes mode ('(' :: rest) .leftParen none rest :=
  lexes_sign (by simp [sign?, hm]) rest

theorem lexes_leftBracket (hm : mode ≠ .key) (rest : List Char) :
    Lexes mode ('[' :: rest) .leftBracket none rest :=
  lexes_sign (by simp [sign?, hm]) rest

theorem starts_bracket (name : String) {c : Char} {kind : TokenKind} (hc : c ∈ delimiters)
    (hk : isOpening kind = true)
    (hl : ∀ mode, mode ≠ .key → ∀ rest, Lexes mode (c :: rest) kind none rest) (rest : List Char) :
    Starts name ((writeOptionalName name).toList ++ c :: rest) := by
  by_cases hn : name = ""
  · subst hn
    exact .opening kind rest hk fun mode hm => hl mode hm rest
  · exact .literal _ _ rfl (written_writeOptionalName hn) (delimited_cons hc rest)

theorem starts_chars (n : Node) (hr : Delimited rest) :
    Starts (Template.wordOf n) (n.chars ++ rest) := by
  cases n with
  | primitive s i =>
    rw [chars_primitive]
    exact .literal _ _ rfl (written_writeValue s) hr
  | object name props i =>
    rw [chars_object, List.append_assoc, List.cons_append]
    exact starts_bracket name (by decide) rfl (fun mode _ => lexes_leftBrace mode) _
  | list name op items i =>
    rw [chars_list, List.append_assoc, List.cons_append]
    cases op with
    | true => exact starts_bracket name (by decide) rfl (fun _ hm => lexes_leftParen hm) _
    | false => exact starts_bracket name (by decide) rfl (fun _ hm => lexes_leftBracket hm) _

/-- The first token of a value, in one of the modes for values. -/
inductive First (word : String) (text : List Char) (kind : TokenKind) (literal : Option String)
    (after : List Char) : Prop
  | literal (holdsText : kind.holdsText = true) (literal_eq : literal = some word)
      (quoted : kind = .quoted → ∀ mode, mode ≠ .unexpected →
        Lexes mode text .quoted (some word) after)
  | opening (opens : isOpening kind = true) (literal_eq : literal = none)
      (lexes : ∀ mode, mode ≠ .key → Lexes mode text kind none after)

theorem Starts.lexes {word : String} (h : Starts word text) (mode : ReadMode)
    (he : (rulesOf mode).stopAtEquals = false) (hb : (rulesOf mode).stopAtBracket = true) :
    ∃ kind literal after, Lexes mode text kind literal after
      ∧ First word text kind literal after := by
  have hm : mode ≠ .key := by
    rintro rfl
    simp [rulesOf] at hb
  cases h with
  | literal cs rest text_eq written delimited =>
    have hend := ends_of_delimited hb delimited
    obtain ⟨kind, hk, hl⟩ := lexes_written mode he written hend
    subst text_eq
    refine ⟨kind, some word, rest, hl, .literal hk rfl ?_⟩
    rintro rfl mode' hu
    exact lexes_quoted_again he written hend hl hu
  | opening kind rest opens lexes =>
    exact ⟨kind, none, rest, lexes mode hm, .opening opens rfl lexes⟩

theorem First.kind_ne {word : String} {kind k : TokenKind} {literal : Option String}
    {after : List Char} (h : First word text kind literal after) (hk : k.holdsText = false)
    (ho : isOpening k = false) : kind ≠ k := by
  cases h with
  | literal holdsText => exact TokenKind.ne_of_holdsText holdsText hk
  | opening opens =>
    rintro rfl
    exact absurd (ho.symm.trans opens) (by decide)

theorem Yields.look (mode : ReadMode) {f : Token → Parser β} {word : String} (hq : Quiet root s)
    (hp : s.tokenizer.Poised .unexpected text) (hs : Starts word text) (hm : mode ≠ .key)
    (hf : ∀ kind start t, kind = .unexpected ∨ isOpening kind = true →
      Yields (rewind (kind == .unexpected)) t (fun _ u =>
        Quiet root u ∧ u.tokenizer.Poised mode text) →
      Yields (f ⟨kind, start, none⟩) t Q) :
    Yields (discard >>= fun _ => next true .unexpected >>= f) s Q := by
  cases hs with
  | literal cs rest text_eq written delimited =>
    obtain ⟨after, hl⟩ := lexes_written_unexpected written (ends_of_delimited rfl delimited)
    rw [← text_eq] at hl
    refine Yields.discard_hold hq hp hl (by simp) fun start t hqt ht => hf _ _ _ (.inl rfl) ?_
    exact ⟨hqt.setTokenizer hqt.queued, ht.since.reread.toRests.poised mode⟩
  | opening kind rest opens lexes =>
    have hne : kind ≠ .lineBreak ∧ (kind == .unexpected) = false := by
      cases kind <;> simp_all [isOpening]
    refine Yields.discard_hold hq hp (lexes _ (by simp)) (fun _ => hne.1) fun start t hqt ht => ?_
    refine hf _ _ _ (.inr opens) ?_
    rw [hne.2]
    exact ⟨hqt.setTokenizer hqt.queued, ht.replay (lexes mode hm)⟩

end ConfigScript.Parser
