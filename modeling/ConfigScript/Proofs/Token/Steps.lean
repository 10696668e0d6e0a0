import ConfigScript.Proofs.Token.Twins

/-! # Readers step by step

Blanks, words and quoted texts are read in steps. A step takes what stands at the front of the
text, and what a reader makes of the text is what one step comes to, and then what it makes of the
text behind that. -/

namespace ConfigScript

/-- Whether a report is about an invalid escape. -/
def Report.isInvalidEscape (r : Report) : Bool :=
  "Invalid unicode escape ".toList.isPrefixOf r.message.toList

namespace Scan

open Cursor

/-- What a step comes to: a blank, which counts where a word goes on behind it, nothing for a joined
line or a comment, or some text. -/
inductive Piece
  | blank (c : Char)
  | joined
  | comment
  | text (cs : List Char)
  deriving DecidableEq, Repr

structure Step where
  used : Nat
  piece : Piece
  deriving DecidableEq, Repr

/-- The step over a blank, a joined line or a comment. -/
def blankStep : List Char → Option Step
  | [] => none
  | c :: rest =>
    if isSpacing c then some ⟨1, .blank c⟩
    else if c == '\\' && rest.head? == some '\n' then some ⟨2, .joined⟩
    else
      (afterComment? (c :: rest)).map fun found =>
        ⟨(c :: rest).length - found.1.length, .comment⟩

/-- The step over a character or an escape. -/
def charStep (c : Char) (rest : List Char) : Step :=
  if c == '\\' then ⟨1 + (escape .ignore 0 rest).used, .text (escape .ignore 0 rest).text⟩
  else ⟨1, .text [c]⟩

/-- The step of a reader of words, if it goes on. -/
def wordStep (r : WordRules) (operators : Option OperatorTable) (cs : List Char) : Option Step :=
  match blankStep cs, cs with
  | some s, _ => if r.stopAtBlank && s.piece != .joined then none else some s
  | none, [] => none
  | none, c :: rest =>
    if r.stopsAt c || (c != '\\' && startsOperator operators (c :: rest)) then none
    else some (charStep c rest)

/-- The step of a reader of quoted texts, if it goes on. -/
def quotedStep (quote : Char) : List Char → Option Step
  | [] => none
  | c :: rest =>
    if c == quote then none
    else if c == '\\' && rest.head? == some '\n' then some ⟨2, .joined⟩
    else if c == '\n' then some ⟨1 + (rest.length - (skipMargin rest).length), .text ['\n']⟩
    else some (charStep c rest)

/-- A reader that goes on step by step comes from one place to another. -/
inductive Comes (step : List Char → Option Step) : Cursor → Cursor → Prop
  | here (c : Cursor) : Comes step c c
  | on {c d : Cursor} {s : Step} (first : step c.rest = some s)
    (rest : Comes step (c.advance s.used) d) : Comes step c d

namespace Piece

/-- The text that a step adds behind pending blanks. -/
def added (blanks : List Char) : Piece → List Char
  | text cs => blanks ++ cs
  | _ => []

/-- The blanks that are pending behind a step. -/
def pending (blanks : List Char) : Piece → List Char
  | blank c => blanks ++ [c]
  | text _ => []
  | _ => blanks

end Piece

/-! ## Invalid escapes -/

/-- The letter of an invalid escape that starts here. -/
def invalidEscape? : List Char → Option Char
  | '\\' :: 'u' :: cs => if (hexChar? 4 cs).isNone then some 'u' else none
  | '\\' :: 'U' :: cs => if (hexChar? 8 cs).isNone then some 'U' else none
  | _ => none

/-- The reports on invalid escapes. -/
def invalidEscapes (rs : List Report) : List Report := rs.filter Report.isInvalidEscape

/-- The report on the escape that starts here, if it is invalid. -/
def ownReports (policy : UnicodePolicy) (pos : Nat) (cs : List Char) : List Report :=
  match invalidEscape? cs with
  | some letter => escapeReports policy letter pos
  | none => []

theorem invalidEscapes_append (rs ss : List Report) :
    invalidEscapes (rs ++ ss) = invalidEscapes rs ++ invalidEscapes ss :=
  List.filter_append rs ss

theorem invalidEscapes_other {message : String}
    (h : Report.isInvalidEscape (.errorAt message none) = false) (position : Option Nat) :
    invalidEscapes [Report.errorAt message position] = [] :=
  List.filter_cons_of_neg (Bool.eq_false_iff.mp h)

theorem invalidEscapes_comment (pos : Nat) (closed : Bool) :
    invalidEscapes (commentReports pos closed) = [] := by
  cases closed with
  | true => rfl
  | false => exact invalidEscapes_other (by decide) (some pos)

theorem invalidEscapes_escapeReports (policy : UnicodePolicy) (letter : Char) (pos : Nat) :
    invalidEscapes (escapeReports policy letter pos) = escapeReports policy letter pos := by
  have hinvalid (severity : Severity) : Report.isInvalidEscape ⟨severity,
      "Invalid unicode escape '\\" ++ String.ofList [letter] ++ "'", some pos, []⟩ = true := by
    simp [Report.isInvalidEscape, String.toList_append, List.isPrefixOf]
  cases policy with
  | error => exact List.filter_cons_of_pos (hinvalid .error)
  | warn => exact List.filter_cons_of_pos (hinvalid .warning)
  | ignore => rfl

theorem invalidEscape?_of_ne {c : Char} (hc : c ≠ '\\') (cs : List Char) :
    invalidEscape? (c :: cs) = none := by
  unfold invalidEscape?
  split
  · exact absurd (List.cons.inj ‹_›).1 hc
  · exact absurd (List.cons.inj ‹_›).1 hc
  · rfl

theorem ownReports_of_ne {c : Char} (hc : c ≠ '\\') (policy : UnicodePolicy) (pos : Nat)
    (cs : List Char) : ownReports policy pos (c :: cs) = [] := by
  rw [ownReports, invalidEscape?_of_ne hc]

theorem escape_reports (policy : UnicodePolicy) (pos : Nat) (cs : List Char) :
    invalidEscapes (escape policy pos cs).reports = ownReports policy pos ('\\' :: cs) := by
  have hunicode (letter : Char) (n : Nat) (cs : List Char) :
      invalidEscapes (unicodeEscape policy letter n pos cs).reports
        = if (hexChar? n cs).isNone then escapeReports policy letter pos else [] := by
    unfold unicodeEscape
    cases hexChar? n cs with
    | some d => rfl
    | none => exact invalidEscapes_escapeReports policy letter pos
  rw [ownReports]
  unfold escape
  split
  · rfl
  · rfl
  · rfl
  · rfl
  · rename_i cs
    rw [hunicode, invalidEscape?]
    cases hexChar? 4 cs <;> rfl
  · rename_i cs
    rw [hunicode, invalidEscape?]
    cases hexChar? 8 cs <;> rfl
  · rename_i c cs _ _ _ hu hU
    have hnone : invalidEscape? ('\\' :: c :: cs) = none := by
      unfold invalidEscape?
      split
      · exact absurd (List.cons.inj (List.cons.inj ‹_›).2).1 hu
      · exact absurd (List.cons.inj (List.cons.inj ‹_›).2).1 hU
      · rfl
    rw [hnone]
    rfl

/-- What an escape comes to depends neither on the policy nor on where it stands. -/
theorem escape_eq (policy : UnicodePolicy) (pos : Nat) (cs : List Char) :
    (escape policy pos cs).text = (escape .ignore 0 cs).text
      ∧ (escape policy pos cs).used = (escape .ignore 0 cs).used := by
  have hunicode (letter : Char) (n : Nat) (cs : List Char) :
      (unicodeEscape policy letter n pos cs).text = (unicodeEscape .ignore letter n 0 cs).text
        ∧ (unicodeEscape policy letter n pos cs).used
          = (unicodeEscape .ignore letter n 0 cs).used := by
    unfold unicodeEscape
    cases hexChar? n cs with
    | some d => exact ⟨rfl, rfl⟩
    | none => exact ⟨rfl, rfl⟩
  unfold escape
  split
  · exact ⟨rfl, rfl⟩
  · exact ⟨rfl, rfl⟩
  · exact ⟨rfl, rfl⟩
  · exact ⟨rfl, rfl⟩
  · exact hunicode _ _ _
  · exact hunicode _ _ _
  · exact ⟨rfl, rfl⟩

/-! ## Readers -/

/-- The same word with some text in front of it, and some reports on escapes. -/
structure Word.Behind (v : Word) (front : List Char) (own : List Report) (w : Word) : Prop where
  text : v.text = front ++ w.text
  after : v.after = w.after
  reports : invalidEscapes v.reports = own ++ invalidEscapes w.reports

/-- A reader goes on with the steps, and has nothing to say on escapes where it stops. -/
structure Follows (policy : UnicodePolicy) (step : List Char → Option Step)
    (read : List Char → Nat → List Char → Word) : Prop where
  used {cs : List Char} {s : Step} (h : step cs = some s) : 0 < s.used ∧ s.used ≤ cs.length
  goes {cs : List Char} {s : Step} (h : step cs = some s) (blanks : List Char) (pos : Nat) :
    (read blanks pos cs).Behind (s.piece.added blanks) (ownReports policy pos cs)
      (read (s.piece.pending blanks) (pos + s.used) (cs.drop s.used))
  stops {cs : List Char} (h : step cs = none) : ∃ n, ∀ blanks, ∃ text, ∀ pos,
    (read blanks pos cs).text = text ∧ (read blanks pos cs).after = ⟨pos + n, cs.drop n⟩
      ∧ invalidEscapes (read blanks pos cs).reports = []
  invalid {cs : List Char} {letter : Char} (h : invalidEscape? cs = some letter) :
    step cs = some ⟨2, .text [letter]⟩

/-! ### Steps by what stands in front -/

section

variable {c : Char} {rest : List Char}

theorem blankStep_blank (hs : isSpacing c = true) : blankStep (c :: rest) = some ⟨1, .blank c⟩ :=
  if_pos hs

theorem blankStep_joined (hs : ¬isSpacing c = true)
    (hj : (c == '\\' && rest.head? == some '\n') = true) :
    blankStep (c :: rest) = some ⟨2, .joined⟩ := by
  rw [blankStep, if_neg hs, if_pos hj]

theorem blankStep_comment (hs : ¬isSpacing c = true)
    (hj : ¬(c == '\\' && rest.head? == some '\n') = true) {after : List Char} {closed : Bool}
    (hk : afterComment? (c :: rest) = some (after, closed)) :
    blankStep (c :: rest) = some ⟨(c :: rest).length - after.length, .comment⟩ := by
  rw [blankStep, if_neg hs, if_neg hj, hk]
  rfl

theorem blankStep_none (hs : ¬isSpacing c = true)
    (hj : ¬(c == '\\' && rest.head? == some '\n') = true) (hk : afterComment? (c :: rest) = none) :
    blankStep (c :: rest) = none := by
  rw [blankStep, if_neg hs, if_neg hj, hk]
  rfl

theorem eq_of_joined (hj : (c == '\\' && rest.head? == some '\n') = true) :
    ∃ cs, c :: rest = '\\' :: '\n' :: cs := by
  simp only [Bool.and_eq_true, beq_iff_eq] at hj
  obtain ⟨cs, hcs⟩ := List.head?_eq_some_iff.mp hj.2
  exact ⟨cs, by rw [hj.1, hcs]⟩

theorem two_le_of_joined (hj : (c == '\\' && rest.head? == some '\n') = true) :
    2 ≤ (c :: rest).length := by
  obtain ⟨cs, hcs⟩ := eq_of_joined hj
  rw [hcs]
  exact Nat.succ_le_succ (Nat.succ_le_succ (Nat.zero_le _))

end

theorem blankStep_used {cs : List Char} {s : Step} (h : blankStep cs = some s) :
    0 < s.used ∧ s.used ≤ cs.length := by
  unfold blankStep at h
  split at h
  · simp at h
  · rename_i c rest
    split at h
    · obtain rfl := Option.some.inj h
      exact ⟨Nat.one_pos, Nat.succ_le_succ (Nat.zero_le _)⟩
    · split at h
      · rename_i hj
        obtain rfl := Option.some.inj h
        exact ⟨Nat.two_pos, two_le_of_joined hj⟩
      · obtain ⟨found, hk, rfl⟩ := Option.map_eq_some_iff.mp h
        have hlt : found.1.length < (c :: rest).length := afterComment?_length_lt hk
        exact ⟨Nat.sub_pos_of_lt hlt, Nat.sub_le _ _⟩

theorem charStep_used (c : Char) (rest : List Char) :
    0 < (charStep c rest).used ∧ (charStep c rest).used ≤ (c :: rest).length := by
  have hescape := escape_used_le .ignore 0 rest
  unfold charStep
  split
  · simp only [List.length_cons]
    omega
  · exact ⟨Nat.one_pos, Nat.succ_le_succ (Nat.zero_le _)⟩

theorem invalidEscape?_eq_some {cs : List Char} {letter : Char}
    (h : invalidEscape? cs = some letter) : ∃ rest, cs = '\\' :: letter :: rest
      ∧ (letter = 'u' ∨ letter = 'U')
      ∧ charStep '\\' (letter :: rest) = ⟨2, .text [letter]⟩ := by
  unfold invalidEscape? at h
  split at h
  · rename_i rest
    cases hd : hexChar? 4 rest with
    | some d => simp [hd] at h
    | none =>
      obtain rfl : 'u' = letter := by simpa [hd] using h
      exact ⟨rest, rfl, .inl rfl, by simp [charStep, escape, unicodeEscape, hd]⟩
  · rename_i rest
    cases hd : hexChar? 8 rest with
    | some d => simp [hd] at h
    | none =>
      obtain rfl : 'U' = letter := by simpa [hd] using h
      exact ⟨rest, rfl, .inr rfl, by simp [charStep, escape, unicodeEscape, hd]⟩
  · simp at h

theorem not_joined {letter : Char} (h : letter = 'u' ∨ letter = 'U') (rest : List Char) :
    ¬('\\' == '\\' && (letter :: rest).head? == some '\n') = true := by
  rcases h with rfl | rfl <;> simp

theorem blankStep_escape {letter : Char} (h : letter = 'u' ∨ letter = 'U') (rest : List Char) :
    blankStep ('\\' :: letter :: rest) = none :=
  blankStep_none (by decide) (not_joined h rest)
    (afterComment?_eq_none (startsComment_of_ne (by decide) _))

theorem behind_escape (policy : UnicodePolicy) (rest : List Char) (blanks : List Char) (pos : Nat)
    (read : Nat → List Char → Word) :
    let e := escape policy pos rest
    let w := read (pos + 1 + e.used) (rest.drop e.used)
    Word.Behind ⟨blanks ++ e.text ++ w.text, true, w.after, e.reports ++ w.reports⟩
      ((charStep '\\' rest).piece.added blanks) (ownReports policy pos ('\\' :: rest))
      (read (pos + (charStep '\\' rest).used) (('\\' :: rest).drop (charStep '\\' rest).used)) := by
  obtain ⟨htext, hused⟩ := escape_eq policy pos rest
  intro e w
  have hstep : charStep '\\' rest = ⟨e.used + 1, .text e.text⟩ := by
    rw [charStep, if_pos (beq_self_eq_true _), ← htext, ← hused, Nat.add_comm]
  rw [hstep, List.drop_succ_cons, ← Nat.add_assoc, Nat.add_right_comm]
  refine ⟨rfl, rfl, ?_⟩
  rw [invalidEscapes_append, escape_reports]

/-! ### Words -/

variable {r : WordRules} {operators : Option OperatorTable}

theorem wordStep_used {cs : List Char} {s : Step} (h : wordStep r operators cs = some s) :
    0 < s.used ∧ s.used ≤ cs.length := by
  unfold wordStep at h
  split at h
  · rename_i hb
    split at h
    · simp at h
    · obtain rfl := Option.some.inj h
      exact blankStep_used hb
  · simp at h
  · split at h
    · simp at h
    · obtain rfl := Option.some.inj h
      exact charStep_used _ _

theorem wordStep_invalid {cs : List Char} {letter : Char} (h : invalidEscape? cs = some letter) :
    wordStep r operators cs = some ⟨2, .text [letter]⟩ := by
  obtain ⟨rest, rfl, hletter, hstep⟩ := invalidEscape?_eq_some h
  simp only [wordStep, blankStep_escape hletter, bne_self_eq_false, Bool.false_and, Bool.or_false,
    hstep]
  exact if_neg (by simp [WordRules.stopsAt])

theorem word_goes (policy : UnicodePolicy) (r : WordRules) (operators : Option OperatorTable)
    {cs : List Char} {s : Step} (h : wordStep r operators cs = some s) (blanks : List Char)
    (pos : Nat) : (word policy r operators blanks pos cs).Behind (s.piece.added blanks)
      (ownReports policy pos cs)
      (word policy r operators (s.piece.pending blanks) (pos + s.used) (cs.drop s.used)) := by
  unfold wordStep at h
  fun_cases word policy r operators blanks pos cs with
  | case1 => simp [blankStep] at h
  | case2 c rest hs hb => simp [blankStep_blank hs, hb] at h
  | case3 c rest hs hb =>
    obtain rfl : (⟨1, .blank c⟩ : Step) = s := by simpa [blankStep_blank hs, hb] using h
    rw [ownReports_of_ne (ne_backslash_of_isSpacing hs)]
    exact ⟨rfl, rfl, rfl⟩
  | case4 c rest hs hj =>
    obtain rfl : (⟨2, .joined⟩ : Step) = s := by simpa [blankStep_joined hs hj] using h
    obtain ⟨cs, hcs⟩ := eq_of_joined hj
    rw [hcs]
    obtain ⟨rfl, rfl⟩ := List.cons.inj hcs
    exact ⟨rfl, rfl, rfl⟩
  | case5 c rest hs hj after closed hk hb => simp [blankStep_comment hs hj hk, hb] at h
  | case6 c rest hs hj after closed hk hb =>
    obtain rfl : (⟨(c :: rest).length - after.length, .comment⟩ : Step) = s := by
      simpa [blankStep_comment hs hj hk, hb] using h
    rw [ownReports_of_ne (ne_backslash_of_afterComment? hk), drop_afterComment? hk]
    refine ⟨rfl, rfl, ?_⟩
    rw [invalidEscapes_append, invalidEscapes_comment]
    rfl
  | case7 c rest hs hj hk hstop => simp [blankStep_none hs hj hk, hstop] at h
  | case8 c rest hs hj hk hstop hc e =>
    obtain rfl : charStep c rest = s := by simpa [blankStep_none hs hj hk, hstop] using h
    obtain rfl : c = '\\' := by simpa using hc
    exact behind_escape policy rest blanks pos (word policy r operators [])
  | case9 c rest hs hj hk hstop hc =>
    obtain rfl : charStep c rest = s := by simpa [blankStep_none hs hj hk, hstop] using h
    rw [ownReports_of_ne (by simpa using hc), charStep, if_neg hc]
    exact ⟨(List.append_assoc blanks [c] _).symm, rfl, rfl⟩

theorem word_stops (policy : UnicodePolicy) {cs : List Char} (h : wordStep r operators cs = none)
    (blanks : List Char) (pos : Nat) :
    word policy r operators blanks pos cs = ⟨[], false, ⟨pos, cs⟩, []⟩ := by
  unfold wordStep at h
  fun_cases word policy r operators blanks pos cs with
  | case1 => rfl
  | case2 => rfl
  | case3 c rest hs hb => simp [blankStep_blank hs, hb] at h
  | case4 c rest hs hj => simp [blankStep_joined hs hj] at h
  | case5 => rfl
  | case6 c rest hs hj after closed hk hb => simp [blankStep_comment hs hj hk, hb] at h
  | case7 => rfl
  | case8 c rest hs hj hk hstop hc e => simp [blankStep_none hs hj hk, hstop] at h
  | case9 c rest hs hj hk hstop hc => simp [blankStep_none hs hj hk, hstop] at h

theorem word_follows (policy : UnicodePolicy) (r : WordRules) (operators : Option OperatorTable) :
    Follows policy (wordStep r operators) (word policy r operators) where
  used := wordStep_used
  goes := word_goes policy r operators
  stops h := ⟨0, fun blanks => ⟨[], fun pos => by
    rw [word_stops policy h]
    exact ⟨rfl, rfl, rfl⟩⟩⟩
  invalid := wordStep_invalid

/-! ### Quoted texts -/

/-- A quoted text with some text in front of it. -/
def quotedBehind (policy : UnicodePolicy) (quote : Char) (start : Nat) (front : List Char)
    (pos : Nat) (cs : List Char) : Word :=
  let w := quoted policy quote start pos cs
  { w with text := front ++ w.text }

theorem quotedStep_used {quote : Char} {cs : List Char} {s : Step}
    (h : quotedStep quote cs = some s) : 0 < s.used ∧ s.used ≤ cs.length := by
  unfold quotedStep at h
  split at h
  · simp at h
  · rename_i c rest
    split at h
    · simp at h
    · split at h
      · rename_i hj
        obtain rfl := Option.some.inj h
        exact ⟨Nat.two_pos, two_le_of_joined hj⟩
      · split at h
        · obtain rfl := Option.some.inj h
          simp only [List.length_cons]
          omega
        · obtain rfl := Option.some.inj h
          exact charStep_used c rest

theorem quotedStep_invalid {quote : Char} (hq : quote ≠ '\\') {cs : List Char} {letter : Char}
    (h : invalidEscape? cs = some letter) : quotedStep quote cs = some ⟨2, .text [letter]⟩ := by
  obtain ⟨rest, rfl, hletter, hstep⟩ := invalidEscape?_eq_some h
  rw [quotedStep, if_neg (by simpa using Ne.symm hq), if_neg (not_joined hletter rest),
    if_neg (by decide), hstep]

theorem quoted_goes (policy : UnicodePolicy) (quote : Char) (start : Nat) {cs : List Char}
    {s : Step} (h : quotedStep quote cs = some s) (blanks : List Char) (pos : Nat) :
    (quotedBehind policy quote start blanks pos cs).Behind (s.piece.added blanks)
      (ownReports policy pos cs)
      (quotedBehind policy quote start (s.piece.pending blanks) (pos + s.used)
        (cs.drop s.used)) := by
  unfold quotedStep at h
  unfold quotedBehind
  fun_cases quoted policy quote start pos cs with
  | case1 => simp at h
  | case2 c rest hc => simp [hc] at h
  | case3 c rest hc hb hj =>
    have hjoin : (c == '\\' && rest.head? == some '\n') = true := by rw [hb, hj]; rfl
    obtain rfl : (⟨2, .joined⟩ : Step) = s := by simpa [hc, hjoin] using h
    obtain ⟨cs, hcs⟩ := eq_of_joined hjoin
    rw [hcs]
    obtain ⟨rfl, rfl⟩ := List.cons.inj hcs
    exact ⟨rfl, rfl, rfl⟩
  | case4 c rest hc hb hj e =>
    obtain rfl : c = '\\' := by simpa using hb
    have hne : rest.head? ≠ some '\n' := by simpa using hj
    obtain rfl : charStep '\\' rest = s := by simpa [hc, hne] using h
    have hbehind := behind_escape policy rest blanks pos (quotedBehind policy quote start [])
    exact ⟨(List.append_assoc _ _ _).symm.trans hbehind.text, hbehind.after, hbehind.reports⟩
  | case5 c rest hc hb hn rest' =>
    have hjoin : ¬(c == '\\' && rest.head? == some '\n') = true := by simp [hb]
    obtain rfl : c = '\n' := by simpa using hn
    obtain rfl : (⟨1 + (rest.length - (skipMargin rest).length), .text ['\n']⟩ : Step) = s := by
      simpa [hc, hjoin] using h
    have hdrop : ('\n' :: rest).drop (1 + (rest.length - (skipMargin rest).length))
        = skipMargin rest := by
      rw [Nat.add_comm, List.drop_succ_cons]
      exact (List.suffix_iff_eq_drop.mp (skipMargin_suffix rest)).symm
    rw [ownReports_of_ne (by decide), hdrop, ← Nat.add_assoc]
    exact ⟨(List.append_assoc blanks ['\n'] _).symm, rfl, rfl⟩
  | case6 c rest hc hb hn =>
    have hjoin : ¬(c == '\\' && rest.head? == some '\n') = true := by simp [hb]
    obtain rfl : charStep c rest = s := by simpa [hc, hjoin, hn] using h
    rw [ownReports_of_ne (by simpa using hb), charStep, if_neg hb]
    exact ⟨(List.append_assoc blanks [c] _).symm, rfl, rfl⟩

theorem quoted_stops (policy : UnicodePolicy) {quote : Char} (start : Nat) {cs : List Char}
    (h : quotedStep quote cs = none) : ∃ n, ∀ front, ∃ text, ∀ pos,
      (quotedBehind policy quote start front pos cs).text = text
        ∧ (quotedBehind policy quote start front pos cs).after = ⟨pos + n, cs.drop n⟩
        ∧ invalidEscapes (quotedBehind policy quote start front pos cs).reports = [] := by
  unfold quotedStep at h
  split at h
  · refine ⟨0, fun front => ⟨front, fun pos => ?_⟩⟩
    rw [quotedBehind, quoted]
    exact ⟨List.append_nil front, rfl, invalidEscapes_other (by decide) (some start)⟩
  · rename_i c rest
    split at h
    · rename_i hc
      refine ⟨1, fun front => ⟨front, fun pos => ?_⟩⟩
      rw [quotedBehind, quoted, if_pos hc]
      exact ⟨List.append_nil front, rfl, rfl⟩
    · split at h
      · simp at h
      · split at h
        · simp at h
        · simp at h

theorem quoted_follows (policy : UnicodePolicy) {quote : Char} (hq : quote ≠ '\\') (start : Nat) :
    Follows policy (quotedStep quote) (quotedBehind policy quote start) where
  used := quotedStep_used
  goes := quoted_goes policy quote start
  stops := quoted_stops policy start
  invalid := quotedStep_invalid hq

end Scan

end ConfigScript
