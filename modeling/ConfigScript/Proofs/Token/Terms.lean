import ConfigScript.Proofs.Operator.Levels
import ConfigScript.Proofs.Token.Shortened

/-! # Terms of operations

In an operation the longest sign that is spelled at a place wins over numbers and words, and a word
ends in front of the next sign. Whether a place of a word can end it is said by the text alone: an
escape is one step, as is a joined line, and any other character is a place of its own. -/

namespace ConfigScript

namespace OperatorTable

variable {t : OperatorTable} {o : Operator} {cs : List Char} {n : Nat}

/-- An operator that is no keyword is spelled at the front of a text. -/
def SpelledAt (t : OperatorTable) (cs : List Char) (o : Operator) : Prop :=
  o ∈ t.operators ∧ o.keyword = false ∧ o.name.toList <+: cs

/-- The longest spelling at the front of a text. -/
structure Longest (t : OperatorTable) (cs : List Char) (o : Operator) : Prop where
  spelled : t.SpelledAt cs o
  longest (p : Operator) : t.SpelledAt cs p → p.name.toList.length ≤ o.name.toList.length

theorem longestMatch?_longest (h : t.longestMatch? cs = some n) :
    ∃ o, t.Longest cs o ∧ o.name.toList.length = n := by
  have hmem : ∀ o, t.SpelledAt cs o
      ↔ o ∈ t.operators.filter fun o => !o.keyword && o.name.toList.isPrefixOf cs := by
    intro o
    rw [List.mem_filter, Bool.and_eq_true, Bool.not_eq_true', List.isPrefixOf_iff_prefix]
    rfl
  obtain ⟨hn, hle⟩ := List.max?_eq_some_iff.mp h
  obtain ⟨o, ho, rfl⟩ := List.mem_map.mp hn
  refine ⟨o, ⟨(hmem o).mpr ho, fun p hp => ?_⟩, rfl⟩
  exact hle _ (List.mem_map_of_mem ((hmem p).mp hp))

theorem longestMatch?_none : t.longestMatch? cs = none ↔ ¬∃ o, t.SpelledAt cs o := by
  rw [longestMatch?_eq_none_iff]
  exact ⟨fun h ⟨o, ho, hk, hp⟩ => h o ho hk hp, fun h o ho hk hp => h ⟨o, ho, hk, hp⟩⟩

theorem longestMatch?_isSome : (t.longestMatch? cs).isSome = true ↔ ∃ o, t.SpelledAt cs o := by
  rw [← not_iff_not, ← longestMatch?_none, Option.not_isSome_iff_eq_none]

end OperatorTable

namespace Scan

open Cursor

variable {policy : UnicodePolicy} {operators : OperatorTable} {c p q : Cursor} {cs : List Char}

/-! ## Places of a text -/

/-- The step over a joined line, an escape or a character. -/
def textStep : List Char → Option Step
  | [] => none
  | c :: rest =>
    if c == '\\' && rest.head? == some '\n' then some ⟨2, .joined⟩ else some (charStep c rest)

/-- Whether an escape stands here; in front of a line break, a backslash joins lines. -/
def startsEscape : List Char → Bool
  | c :: rest => c == '\\' && rest.head? != some '\n'
  | [] => false

/-- A place between two others that neither an escape nor a joined line takes. -/
structure Plain (c d q : Cursor) : Prop where
  comes : Comes textStep c q
  before : q.pos < d.pos
  plain : q.rest.head? ≠ some '\\'

/-- There is an escape between two places. -/
def Escaped (c d : Cursor) : Prop :=
  ∃ q, Comes textStep c q ∧ q.pos < d.pos ∧ startsEscape q.rest = true

/-! ## Numbers -/

/-- Some decimal digits. -/
def Digits (cs : List Char) : Prop := cs ≠ [] ∧ ∀ c ∈ cs, c.isDigit = true

/-- Digits, with or without a fraction and an exponent. -/
def NumberText (cs : List Char) : Prop :=
  ∃ whole fraction exponent, cs = whole ++ fraction ++ exponent ∧ Digits whole
    ∧ (fraction = [] ∨ ∃ digits, fraction = '.' :: digits ∧ Digits digits)
    ∧ (exponent = [] ∨ ∃ e sign digits, exponent = e :: sign ++ digits ∧ e ∈ ['e', 'E']
      ∧ sign ∈ [[], ['+'], ['-']] ∧ Digits digits)

/-- What a number may stand in front of. -/
def NumberEnds (operators : OperatorTable) (cs : List Char) : Prop :=
  cs = [] ∨ (∃ c ∈ cs.head?, isSpacing c = true ∨ c ∈ separators) ∨ startsComment cs = true
    ∨ ∃ o, operators.SpelledAt cs o

/-! ## Terms -/

/-- What a lexeme is that is read as a term of an operation at a place. -/
structure TermAt (operators : OperatorTable) (p : Cursor) (l : Lexeme) : Prop where
  start : l.token.start = p.pos
  kinds : l.token.kind ∈ [.operator, .number, .keyword, .word]
  operator : l.token.kind = .operator ↔ ∃ o, operators.SpelledAt p.rest o
  longest : l.token.kind = .operator → ∃ o, operators.Longest p.rest o
    ∧ l.token.literal = some o.name ∧ l.after = p.advance o.name.toList.length
  word : l.token.kind = .word ∨ l.token.kind = .keyword →
    ∀ q, Plain p l.after q → ¬∃ o, operators.SpelledAt q.rest o
  keyword : l.token.kind = .keyword ↔ (l.token.kind = .word ∨ l.token.kind = .keyword)
    ∧ ¬Escaped p l.after ∧ ∃ o ∈ operators.operators, o.keyword = true ∧ o.name = l.token.text
  number : l.token.kind = .number → NumberText l.token.text.toList
    ∧ p.rest = l.token.text.toList ++ l.after.rest ∧ NumberEnds operators l.after.rest

/-! ### Numbers read -/

theorem digits_of_takeDigits {digits rest : List Char} (h : Number.takeDigits cs = (digits, rest))
    (hne : digits ≠ []) : Digits digits := by
  obtain rfl : (Number.takeDigits cs).1 = digits := by rw [h]
  exact ⟨hne, List.all_eq_true.mp List.all_takeWhile⟩

theorem takeFraction_spec (cs : List Char) : (takeFraction cs).1 = []
    ∨ ∃ digits, (takeFraction cs).1 = '.' :: digits ∧ Digits digits := by
  unfold takeFraction
  split
  · rename_i cs
    split
    · exact .inl rfl
    · rename_i digits rest hne hd
      exact .inr ⟨digits, rfl, digits_of_takeDigits hd hne⟩
  · exact .inl rfl

theorem takeSignText_spec (cs : List Char) : (takeSignText cs).1 ∈ [[], ['+'], ['-']] := by
  unfold takeSignText
  split <;> simp

theorem takeExponent_spec (cs : List Char) : (takeExponent cs).1 = []
    ∨ ∃ e sign digits, (takeExponent cs).1 = e :: sign ++ digits ∧ e ∈ ['e', 'E']
      ∧ sign ∈ [[], ['+'], ['-']] ∧ Digits digits := by
  unfold takeExponent
  split
  · rename_i e rest
    split
    · rename_i he
      simp only
      split
      · exact .inl rfl
      · rename_i digits rest' hne hd
        exact .inr ⟨e, (takeSignText rest).1, digits, rfl, by simpa using he,
          takeSignText_spec rest, digits_of_takeDigits hd hne⟩
    · exact .inl rfl
  · exact .inl rfl

theorem endsNumber_iff : endsNumber operators cs = true ↔ NumberEnds operators cs := by
  unfold endsNumber NumberEnds
  cases cs with
  | nil => simp
  | cons c rest =>
    have hclosing : isClosing c = true ↔ isSpacing c = true ∨ c ∈ separators := by
      rw [isClosing, Bool.or_eq_true, List.contains_iff_mem]
      rfl
    simp [hclosing, OperatorTable.longestMatch?_isSome, afterComment?_isSome, or_assoc, or_comm,
      or_left_comm]

theorem numberLiteral?_spec {digits : List Char} (h : numberLiteral? operators cs = some digits) :
    ∃ rest, cs = digits ++ rest ∧ NumberText digits ∧ NumberEnds operators rest := by
  unfold numberLiteral? at h
  simp only at h
  split at h
  · simp at h
  · rename_i hw
    rw [Bool.or_eq_true, not_or, Bool.not_eq_true', Bool.not_eq_false, List.isEmpty_iff] at hw
    obtain rfl := Option.some.inj h
    have h₁ := takeDigits_append cs
    have h₂ := takeFraction_append (Number.takeDigits cs).2
    have h₃ := takeExponent_append (takeFraction (Number.takeDigits cs).2).2
    refine ⟨_, ?_, ⟨_, _, _, rfl, digits_of_takeDigits rfl hw.1, takeFraction_spec _,
      takeExponent_spec _⟩, endsNumber_iff.mp hw.2⟩
    rw [List.append_assoc, h₃, List.append_assoc, h₂, h₁]

/-! ### Steps of a text -/

theorem textStep_used {s : Step} (h : textStep cs = some s) : 0 < s.used ∧ s.used ≤ cs.length := by
  cases cs with
  | nil => cases h
  | cons c rest =>
    rw [textStep] at h
    split at h
    · rename_i hj
      obtain rfl := Option.some.inj h
      exact ⟨Nat.two_pos, two_le_of_joined hj⟩
    · obtain rfl := Option.some.inj h
      exact charStep_used c rest

theorem reaches_of_textSteps (h : Comes textStep c q) : c.Reaches q :=
  h.reaches fun hs => (textStep_used hs).2

theorem escaped_step {d : Cursor} {s : Step} (h : textStep c.rest = some s) (hd : c.pos < d.pos) :
    Escaped c d ↔ startsEscape c.rest = true ∨ Escaped (c.advance s.used) d := by
  constructor
  · rintro ⟨q, hcomes, hq, he⟩
    cases hcomes with
    | here => exact .inl he
    | on first rest =>
      obtain rfl := Option.some.inj (h.symm.trans first)
      exact .inr ⟨q, rest, hq, he⟩
  · rintro (he | ⟨q, hcomes, hq, he⟩)
    · exact ⟨c, .here c, hd, he⟩
    · exact ⟨q, .on h hcomes, hq, he⟩

theorem not_escaped_self (c : Cursor) : ¬Escaped c c := by
  rintro ⟨q, hcomes, hq, -⟩
  obtain ⟨used, -, hpos⟩ := reaches_of_textSteps hcomes
  omega

/-! ### Words read -/

/-- The word that starts at a place of an operation. -/
def operand (policy : UnicodePolicy) (operators : OperatorTable) (blanks : List Char) (c : Cursor) :
    Word :=
  word policy (rulesOf .operation) (some operators) blanks c.pos c.rest

/-- The step of a word in an operation. -/
def operandStep (operators : OperatorTable) (cs : List Char) : Option Step :=
  wordStep (rulesOf .operation) (some operators) cs

/-- A word goes on with the steps of its text, up to a sign, which a backslash keeps from being
one. -/
theorem operandStep_eq_some {s : Step} (h : operandStep operators cs = some s) :
    textStep cs = some s ∧ (cs.head? ≠ some '\\' → operators.longestMatch? cs = none) := by
  cases cs with
  | nil => cases h
  | cons c rest =>
    rw [textStep]
    by_cases hs : isSpacing c = true
    · simp only [operandStep, wordStep, blankStep_blank hs] at h
      cases h
    · by_cases hj : (c == '\\' && rest.head? == some '\n') = true
      · simp only [operandStep, wordStep, blankStep_joined hs hj] at h
        rw [if_pos hj]
        refine ⟨h, fun hne => ?_⟩
        obtain ⟨cs, hcs⟩ := eq_of_joined hj
        rw [hcs] at hne
        exact absurd rfl hne
      · cases hk : afterComment? (c :: rest) with
        | some found =>
          simp only [operandStep, wordStep, blankStep_comment hs hj hk] at h
          cases h
        | none =>
          simp only [operandStep, wordStep, blankStep_none hs hj hk] at h
          rw [if_neg hj]
          split at h
          · cases h
          · rename_i hgo
            refine ⟨h, fun hne => ?_⟩
            have hc : c ≠ '\\' := fun he => hne (congrArg some he)
            have hnone : (rulesOf .operation).stopsAt c = false
                ∧ operators.longestMatch? (c :: rest) = none := by
              simpa [hc, startsOperator] using hgo
            exact hnone.2

theorem word_goes_escaped (policy : UnicodePolicy) (r : WordRules)
    (operators : Option OperatorTable) {s : Step} (h : wordStep r operators cs = some s)
    (blanks : List Char) (pos : Nat) :
    (word policy r operators blanks pos cs).escaped = (startsEscape cs
      || (word policy r operators (s.piece.pending blanks) (pos + s.used) (cs.drop s.used)).escaped)
    := by
  unfold wordStep at h
  fun_cases word policy r operators blanks pos cs with
  | case1 => simp [blankStep] at h
  | case2 c rest hs hb => simp [blankStep_blank hs, hb] at h
  | case3 c rest hs hb =>
    obtain rfl : (⟨1, .blank c⟩ : Step) = s := by simpa [blankStep_blank hs, hb] using h
    have hne : (c == '\\') = false := by simpa using ne_backslash_of_isSpacing hs
    rw [startsEscape, hne]
    rfl
  | case4 c rest hs hj =>
    obtain rfl : (⟨2, .joined⟩ : Step) = s := by simpa [blankStep_joined hs hj] using h
    obtain ⟨cs, hcs⟩ := eq_of_joined hj
    obtain ⟨rfl, rfl⟩ := List.cons.inj hcs
    rfl
  | case5 c rest hs hj after closed hk hb => simp [blankStep_comment hs hj hk, hb] at h
  | case6 c rest hs hj after closed hk hb =>
    obtain rfl : (⟨(c :: rest).length - after.length, .comment⟩ : Step) = s := by
      simpa [blankStep_comment hs hj hk, hb] using h
    have hne : (c == '\\') = false := by simpa using ne_backslash_of_afterComment? hk
    rw [startsEscape, hne, drop_afterComment? hk]
    rfl
  | case7 c rest hs hj hk hstop => simp [blankStep_none hs hj hk, hstop] at h
  | case8 c rest hs hj hk hstop hc e =>
    obtain rfl : c = '\\' := by simpa using hc
    have hne : ¬rest.head? = some '\n' := by simpa using hj
    simp [startsEscape, hne]
  | case9 c rest hs hj hk hstop hc =>
    obtain rfl : charStep c rest = s := by simpa [blankStep_none hs hj hk, hstop] using h
    rw [startsEscape, charStep, if_neg hc, Bool.eq_false_iff.mpr hc]
    rfl

theorem operand_goes (policy : UnicodePolicy) {s : Step}
    (h : operandStep operators c.rest = some s) (blanks : List Char) :
    (operand policy operators blanks c).after
        = (operand policy operators (s.piece.pending blanks) (c.advance s.used)).after
      ∧ (operand policy operators blanks c).escaped = (startsEscape c.rest
        || (operand policy operators (s.piece.pending blanks) (c.advance s.used)).escaped) := by
  exact ⟨(word_goes policy _ _ h blanks c.pos).after,
    word_goes_escaped policy _ _ h blanks c.pos⟩

theorem operand_stops (h : operandStep operators c.rest = none) (blanks : List Char) :
    operand policy operators blanks c = ⟨[], false, c, []⟩ :=
  word_stops policy h blanks c.pos

theorem operand_goes_on (h : Comes textStep c q) (blanks : List Char)
    (hq : q.pos < (operand policy operators blanks c).after.pos) :
    ∃ s, operandStep operators q.rest = some s := by
  induction h generalizing blanks with
  | here c =>
    cases hs : operandStep operators c.rest with
    | some s => exact ⟨s, rfl⟩
    | none =>
      rw [operand_stops hs] at hq
      exact absurd hq (Nat.lt_irrefl _)
  | @on c q s first rest ih =>
    cases hs : operandStep operators c.rest with
    | some s' =>
      obtain rfl := Option.some.inj ((operandStep_eq_some hs).1.symm.trans first)
      rw [(operand_goes policy hs blanks).1] at hq
      exact ih _ hq
    | none =>
      obtain ⟨used, -, hpos⟩ := reaches_of_textSteps (Comes.on first rest)
      have hlt : q.pos < c.pos := by rwa [operand_stops hs] at hq
      omega

theorem operand_escaped (c : Cursor) (blanks : List Char) :
    (operand policy operators blanks c).escaped = true
      ↔ Escaped c (operand policy operators blanks c).after := by
  cases hs : operandStep operators c.rest with
  | none =>
    rw [operand_stops hs]
    exact iff_of_false Bool.false_ne_true (not_escaped_self c)
  | some s =>
    have hstep := (operandStep_eq_some hs).1
    obtain ⟨hpos, hle⟩ := textStep_used hstep
    obtain ⟨hafter, hescaped⟩ := operand_goes policy hs blanks
    have hrest := operand_escaped (c.advance s.used) (s.piece.pending blanks)
    have hlt : c.pos < (operand policy operators blanks c).after.pos := by
      obtain ⟨used, -, hend⟩ := word_reaches policy (rulesOf .operation) (some operators)
        (s.piece.pending blanks) (c.advance s.used).pos (c.advance s.used).rest
      rw [hafter, operand, hend, advance]
      simp only
      omega
    rw [escaped_step hstep hlt, hescaped, Bool.or_eq_true, hrest, hafter]
termination_by c.rest.length
decreasing_by
  rw [advance, List.length_drop]
  omega

/-! ### Terms read -/

theorem skipBlank_of_steps (h : Comes blankStep c p) (hp : blankStep p.rest = none) :
    (skipBlank c.pos c.rest).1 = p := by
  induction h with
  | here c => exact skipBlank_rests hp c.pos
  | on first _ ih => exact (skipBlank_goes first _).trans (ih hp)

theorem skipBlank_steps (c : Cursor) : Comes blankStep c (skipBlank c.pos c.rest).1
    ∧ blankStep (skipBlank c.pos c.rest).1.rest = none := by
  obtain ⟨pos, cs⟩ := c
  simp only
  fun_induction skipBlank pos cs with
  | case1 pos => exact ⟨.here _, rfl⟩
  | case2 pos c rest hs ih => exact ⟨.on (blankStep_blank hs) ih.1, ih.2⟩
  | case3 pos c rest hs hj ih =>
    obtain ⟨cs, hcs⟩ := eq_of_joined hj
    obtain ⟨rfl, rfl⟩ := List.cons.inj hcs
    exact ⟨.on (blankStep_joined hs hj) ih.1, ih.2⟩
  | case4 pos c rest hs hj after closed hk _ r ih =>
    refine ⟨.on (blankStep_comment hs hj hk) ?_, ih.2⟩
    rw [advance, drop_afterComment? hk]
    exact ih.1
  | case5 pos c rest hs hj hk => exact ⟨.here _, blankStep_none hs hj hk⟩

theorem sign?_of_not_mem {ch : Char} (h : ch ∉ separators) : sign? .operation ch = none := by
  unfold sign?
  split <;> first | rfl | exact absurd (by decide) h

theorem isKeyword_iff (word : String) : operators.isKeyword word = true
    ↔ ∃ o ∈ operators.operators, o.keyword = true ∧ o.name = word := by
  simp [OperatorTable.isKeyword, OperatorTable.contains, Operator.spelledAs, and_comm]

theorem termAt_operator {n : Nat} (h : operators.longestMatch? p.rest = some n) :
    TermAt operators p ⟨.ofLiteral .operator p.pos (p.rest.take n), p.advance n, []⟩ := by
  obtain ⟨o, ho, rfl⟩ := OperatorTable.longestMatch?_longest h
  have htake : String.ofList (p.rest.take o.name.toList.length) = o.name := by
    rw [List.prefix_iff_eq_take.mp ho.spelled.2.2 |>.symm, String.ofList_toList]
  constructor
  case start => rfl
  case kinds => exact List.mem_cons_self
  case operator => exact iff_of_true rfl ⟨o, ho.spelled⟩
  case longest => exact fun _ => ⟨o, ho, congrArg some htake, rfl⟩
  case word => rintro (hk | hk) <;> cases hk
  case keyword =>
    refine iff_of_false (fun hk => by cases hk) ?_
    rintro ⟨hk | hk, -⟩ <;> cases hk
  case number => intro hk; cases hk

theorem termAt_number (hn : operators.longestMatch? p.rest = none) {digits : List Char}
    (h : numberLiteral? operators p.rest = some digits) :
    TermAt operators p ⟨.ofLiteral .number p.pos digits, p.advance digits.length, []⟩ := by
  obtain ⟨rest, hrest, htext, hends⟩ := numberLiteral?_spec h
  have hafter : (p.advance digits.length).rest = rest := by
    rw [advance, hrest, List.drop_left]
  constructor
  case start => rfl
  case kinds => exact List.mem_cons_of_mem _ List.mem_cons_self
  case operator =>
    exact iff_of_false (fun hk => by cases hk) (OperatorTable.longestMatch?_none.mp hn)
  case longest => intro hk; cases hk
  case word => rintro (hk | hk) <;> cases hk
  case keyword =>
    refine iff_of_false (fun hk => by cases hk) ?_
    rintro ⟨hk | hk, -⟩ <;> cases hk
  case number =>
    intro _
    simp only [hafter]
    have hliteral : (Token.ofLiteral .number p.pos digits).text.toList = digits :=
      String.toList_ofList
    rw [hliteral]
    exact ⟨htext, hrest, hends⟩

theorem termAt_operand (hn : operators.longestMatch? p.rest = none) :
    TermAt operators p (ofOperand operators p.pos (operand policy operators [] p)) := by
  have hkind : (ofOperand operators p.pos (operand policy operators [] p)).token.kind
      = if !(operand policy operators [] p).escaped
          && operators.isKeyword (String.ofList (operand policy operators [] p).text)
        then .keyword else .word := rfl
  have hword : (ofOperand operators p.pos (operand policy operators [] p)).token.kind = .word
      ∨ (ofOperand operators p.pos (operand policy operators [] p)).token.kind = .keyword := by
    rw [hkind]
    split
    · exact .inr rfl
    · exact .inl rfl
  constructor
  case start => rfl
  case kinds => rcases hword with hk | hk <;> simp [hk]
  case operator =>
    refine iff_of_false (fun hk => ?_) (OperatorTable.longestMatch?_none.mp hn)
    rcases hword with hk' | hk' <;> rw [hk] at hk' <;> cases hk'
  case longest =>
    intro hk
    rcases hword with hk' | hk' <;> rw [hk] at hk' <;> cases hk'
  case word =>
    intro _ q hq
    obtain ⟨s, hs⟩ := operand_goes_on hq.comes [] hq.before
    exact OperatorTable.longestMatch?_none.mp ((operandStep_eq_some hs).2 hq.plain)
  case keyword =>
    have hescaped : (operand policy operators [] p).escaped = true
        ↔ Escaped p (ofOperand operators p.pos (operand policy operators [] p)).after :=
      operand_escaped p []
    have hkeyword : operators.isKeyword (String.ofList (operand policy operators [] p).text) = true
        ↔ ∃ o ∈ operators.operators, o.keyword = true
          ∧ o.name = (ofOperand operators p.pos (operand policy operators [] p)).token.text :=
      isKeyword_iff _
    rw [and_iff_right hword, hkind, ← hescaped, ← hkeyword, Bool.not_eq_true]
    cases (operand policy operators [] p).escaped <;>
      cases operators.isKeyword (String.ofList (operand policy operators [] p).text) <;> decide
  case number =>
    intro hk
    rcases hword with hk' | hk' <;> rw [hk] at hk' <;> cases hk'

theorem term_termAt (policy : UnicodePolicy) (operators : OperatorTable) (p : Cursor) :
    TermAt operators p (term policy operators p) := by
  unfold term
  split
  · exact termAt_operator ‹_›
  · split
    · exact termAt_number ‹_› ‹_›
    · exact termAt_operand ‹_›

theorem TermAt.withReports {l : Lexeme} (h : TermAt operators p l) (rs : List Report) :
    TermAt operators p { l with reports := rs } :=
  ⟨h.start, h.kinds, h.operator, h.longest, h.word, h.keyword, h.number⟩

/-- A read in an operation skips blanks, joined lines and comments. Where then neither structure nor
a quote stands, it gives the longest sign that is spelled there, else a number in front of something
that ends it, else a word. The word takes no place of its own at which a sign is spelled, and it is
a keyword if it is known as one and written without an escape. -/
theorem next_termAt (policy : UnicodePolicy) (operators : OperatorTable) (c : Cursor) :
    (∃ p, Comes blankStep c p ∧ blankStep p.rest = none)
    ∧ ∀ p, Comes blankStep c p → blankStep p.rest = none →
      ∀ ch ∈ p.rest.head?, ch ∉ separators → ch ≠ '"' → ch ≠ '\'' →
        TermAt operators p (next policy .operation operators c) := by
  refine ⟨⟨_, skipBlank_steps c⟩, fun p hblank hp ch hch hsign hdouble hsingle => ?_⟩
  obtain ⟨rest, hrest⟩ := List.head?_eq_some_iff.mp hch
  have hlexeme : lexeme policy .operation operators p = term policy operators p := by
    obtain ⟨pos, cs⟩ := p
    simp only at hrest
    subst hrest
    rw [lexeme_cons, sign?_of_not_mem hsign]
    simp only
    rw [if_neg (by simp [hdouble, hsingle]), if_pos trivial]
  have hnext : next policy .operation operators c
      = { term policy operators p with
        reports := (skipBlank c.pos c.rest).2 ++ (term policy operators p).reports } := by
    rw [← hlexeme, ← skipBlank_of_steps hblank hp]
    rfl
  rw [hnext]
  exact (term_termAt policy operators p).withReports _

/-- Behind a blank and a joined line, the longer of two signs is read. -/
theorem next_termAt_longer :
    let sign (name : String) : Operator :=
      ⟨name, false, .binary, none, .plain, Fixity.defaultPriority .binary⟩
    let operators : OperatorTable := ⟨[sign "+", sign "++"]⟩
    let c := Cursor.start " \\\n++b".toList
    let p : Cursor := ⟨3, "++b".toList⟩
    let l := next .error .operation operators c
    Comes blankStep c p ∧ blankStep p.rest = none ∧ '+' ∈ p.rest.head? ∧ '+' ∉ separators
      ∧ TermAt operators p l ∧ l.token = ⟨.operator, 3, some "++"⟩ := by
  intro sign operators c p l
  have hblank : Comes blankStep c p :=
    .on (s := ⟨1, .blank ' '⟩) rfl (.on (s := ⟨2, .joined⟩) rfl (.here _))
  have hsign : '+' ∉ separators := by decide
  exact ⟨hblank, rfl, rfl, hsign,
    (next_termAt .error operators c).2 p hblank rfl '+' rfl hsign (by decide) (by decide),
    by decide +kernel⟩

/-- The signs in a number do not split it. -/
example :
    let operators : OperatorTable :=
      ⟨[⟨"-", false, .binary, none, .plain, Fixity.defaultPriority .binary⟩]⟩
    (next .error .operation operators (Cursor.start "2e-3-x".toList)).token
      = ⟨.number, 0, some "2e-3"⟩ := by decide +kernel

/-- A joined line inside a keyword is no escape, and its backslash may be a sign by itself. -/
theorem keyword_over_joined_line :
    let operator (name : String) (keyword : Bool) : Operator :=
      ⟨name, keyword, .binary, none, .plain, Fixity.defaultPriority .binary⟩
    let operators := ((OperatorTable.add {} (operator "\\" false)).1.add (operator "ab" true)).1
    let c := Cursor.start "a\\\nb".toList
    let l := next .error .operation operators c
    operators.Reachable ∧ l.token = ⟨.keyword, 0, some "ab"⟩ ∧ ¬Escaped c l.after
      ∧ ∃ n, c.pos + n < l.after.pos ∧ ∃ o, operators.SpelledAt (c.rest.drop n) o := by
  intro operator operators c l
  have hvalid (name : String) (keyword : Bool)
      (hname : Operator.create name keyword .binary none .plain none
        = .ok (operator name keyword)) : (operator name keyword).Valid := ⟨none, hname⟩
  have hreachable : operators.Reachable :=
    .add (.add .empty (hvalid "\\" false rfl)) (hvalid "ab" true rfl)
  have hafter : l.after = (term .error operators c).after := by decide +kernel
  have hkind : (term .error operators c).token.kind = .keyword := by decide +kernel
  have hescaped := ((term_termAt .error operators c).keyword.mp hkind).2.1
  refine ⟨hreachable, by decide +kernel, hafter ▸ hescaped, 1, by decide +kernel, ?_⟩
  exact ⟨operator "\\" false, by decide +kernel, rfl, by decide +kernel⟩

end Scan

end ConfigScript
