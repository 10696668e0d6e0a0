import ConfigScript.Proofs.Text.Literal
import ConfigScript.Proofs.Token.Lexeme

/-! # Written literals read back

In every mode that takes a literal, a written one is read to its end and decoded to its text, as
long as a character follows that ends words in the mode, or none. No operators are known here, so
that a term of an operation is a number or a word. -/

namespace ConfigScript.Scan

open ConfigScript.Text

/-! ## Quoted texts -/

theorem escape_letter {c d : Char} (h : (c, d) ∈ escapeLetters) (policy : UnicodePolicy)
    (backslash : Nat) (cs : List Char) : escape policy backslash (d :: cs) = ⟨[c], 1, []⟩ := by
  simp only [escapeLetters, List.mem_cons, Prod.mk.injEq, List.not_mem_nil, or_false] at h
  rcases h with ⟨rfl, rfl⟩ | ⟨rfl, rfl⟩ | ⟨rfl, rfl⟩ | ⟨rfl, rfl⟩ | ⟨rfl, rfl⟩ <;> rfl

theorem quoted_quoteChar (policy : UnicodePolicy) (start pos : Nat) (s rest : List Char) :
    (quoted policy '"' start pos (s.flatMap quoteChar ++ '"' :: rest)).text = s
      ∧ (quoted policy '"' start pos (s.flatMap quoteChar ++ '"' :: rest)).after.rest = rest
      ∧ (quoted policy '"' start pos (s.flatMap quoteChar ++ '"' :: rest)).reports = [] := by
  induction s generalizing pos with
  | nil => simp [quoted]
  | cons c s ih =>
    rw [List.flatMap_cons, List.append_assoc]
    rcases quoteChar_cases c with ⟨d, hd, hc⟩ | ⟨hc, hq, hb, hl⟩
    · have hn : d ≠ '\n' := by
        rintro rfl
        simp [escapeLetters] at hd
      rw [hc, List.cons_append, List.cons_append, List.nil_append, quoted]
      simpa [hn, escape_letter hd] using ih _
    · rw [hc, List.cons_append, List.nil_append, quoted]
      simpa [hq, hb, hl.1] using ih (pos + 1)

/-! ## Words -/

/-- A character that neither a blank, nor a joined line, nor a comment starts with. -/
structure Solid (c : Char) : Prop where
  spacing : isSpacing c = false
  backslash : c ≠ '\\'
  slash : c ≠ '/'

theorem Solid.afterComment? {c : Char} (h : Solid c) (cs : List Char) :
    afterComment? (c :: cs) = none := by
  unfold Scan.afterComment?
  split
  · rename_i he
    exact absurd (List.cons.inj he).1 h.slash
  · rename_i he
    exact absurd (List.cons.inj he).1 h.slash
  · rfl

theorem solid_of_bareChar {c : Char} (h : BareChar c) : Solid c := by
  refine ⟨?_, h.ne (.inr (by decide)), h.ne (.inr (by decide))⟩
  have hs : c ≠ ' ' := h.ne (.inl (by decide))
  have ht : c ≠ '\t' := h.ne (.inl (by decide))
  simp [isSpacing, hs, ht]

/-- Line breaks, brackets and what stands between entries. -/
def separators : List Char := ['\n', '{', '}', ',', '(', ')', '[', ']', ':']

theorem not_mem_separators {c : Char} (h : BareChar c) : c ∉ separators := by
  have hall : separators.all (fun d => isBlank d || isMark d) = true := by decide
  intro hm
  have hc := List.all_eq_true.mp hall c hm
  rw [Bool.or_eq_true] at hc
  exact h.ne hc rfl

theorem mem_of_stopsAt {r : WordRules} {c : Char} (h : r.stopsAt c = true) :
    c ∈ separators ∨ r.stopAtEquals = true ∧ c = '=' := by
  simp only [separators, WordRules.stopsAt, Bool.or_eq_true, Bool.and_eq_true, List.contains_eq_mem,
    decide_eq_true_eq, beq_iff_eq, List.mem_cons, List.not_mem_nil, or_false] at h ⊢
  grind

theorem solid_of_stopsAt {r : WordRules} {c : Char} (h : r.stopsAt c = true) : Solid c := by
  have hall : separators.all (fun d => !isSpacing d && d != '\\' && d != '/') = true := by decide
  rcases mem_of_stopsAt h with hm | ⟨-, rfl⟩
  · have hc := List.all_eq_true.mp hall c hm
    simp only [Bool.and_eq_true, Bool.not_eq_true', bne_iff_ne] at hc
    exact ⟨hc.1.1, hc.1.2, hc.2⟩
  · exact ⟨by decide, by decide, by decide⟩

theorem stopsAt_of_bareChar {r : WordRules} {c : Char} (h : BareChar c)
    (hc : r.stopAtEquals = false ∨ c ≠ '=') : r.stopsAt c = false := by
  rw [← Bool.not_eq_true]
  intro hs
  rcases mem_of_stopsAt hs with hm | ⟨he, rfl⟩
  · exact not_mem_separators h hm
  · simp [he] at hc

/-- The text is over, or goes on with a character that ends words. -/
def Ends (r : WordRules) (rest : List Char) : Prop := ∀ c ∈ rest.head?, r.stopsAt c = true

theorem word_solid_cons {c : Char} (h : Solid c) {policy : UnicodePolicy} {r : WordRules}
    {operators : Option OperatorTable} {pos : Nat} {rest : List Char} :
    word policy r operators [] pos (c :: rest) =
      if r.stopsAt c || startsOperator operators (c :: rest) then ⟨[], false, ⟨pos, c :: rest⟩, []⟩
      else
        let w := word policy r operators [] (pos + 1) rest
        { w with text := c :: w.text } := by
  have hb : (c == '\\') = false := by simpa using h.backslash
  rw [word_here (Bool.eq_false_iff.mp h.spacing) (by simp [h.backslash]) (h.afterComment? rest),
    bne,
    hb, Bool.not_false, Bool.true_and, if_neg Bool.false_ne_true]
  rfl

theorem word_solid (policy : UnicodePolicy) {r : WordRules} {operators : Option OperatorTable}
    (ho : ∀ cs, startsOperator operators cs = false) {s rest : List Char}
    (hs : ∀ c ∈ s, Solid c ∧ r.stopsAt c = false) (hrest : Ends r rest) (pos : Nat) :
    word policy r operators [] pos (s ++ rest) = ⟨s, false, ⟨pos + s.length, rest⟩, []⟩ := by
  induction s generalizing pos with
  | nil =>
    cases rest with
    | nil => rw [List.append_nil, word_nil, List.length_nil, Nat.add_zero]
    | cons c rest =>
      have hc : r.stopsAt c = true := hrest c rfl
      rw [List.nil_append, word_solid_cons (solid_of_stopsAt hc), if_pos (by simp [hc])]
      rfl
  | cons c s ih =>
    obtain ⟨hsolid, hstop⟩ := hs c List.mem_cons_self
    have hw := ih (fun d hd => hs d (List.mem_cons_of_mem c hd)) (pos + 1)
    rw [List.cons_append, word_solid_cons hsolid, if_neg (by simp [hstop, ho]), hw,
      List.length_cons, Nat.add_assoc, Nat.add_comm 1]

/-! ## Numbers -/

/-- A character that does not end a number by itself. -/
def isInner (c : Char) : Bool := !isClosing c && c != '/'

/-- The characters that are not inner ones. -/
def outers : List Char := [' ', '\t', '\n', '{', '}', ',', '(', ')', '[', ']', ':', '/']

theorem isInner_eq_false {c : Char} : isInner c = false ↔ c ∈ outers := by
  simp only [isInner, isClosing, isSpacing, outers, Bool.and_eq_false_iff, Bool.not_eq_false',
    Bool.or_eq_true, beq_iff_eq, List.contains_eq_mem, decide_eq_true_eq, bne_eq_false_iff_eq,
    List.mem_cons, List.not_mem_nil, or_false]
  grind

theorem isInner_of_not_mem {c : Char} (h : c ∉ outers) : isInner c = true := by
  rw [← Bool.not_eq_false, isInner_eq_false]
  exact h

theorem isInner_of_bareChar {c : Char} (h : BareChar c) : isInner c = true := by
  have hall : outers.all (fun d => isBlank d || isMark d) = true := by decide
  refine isInner_of_not_mem fun hm => ?_
  have hc := List.all_eq_true.mp hall c hm
  rw [Bool.or_eq_true] at hc
  exact h.ne hc rfl

theorem isInner_takeDigits {cs : List Char} {c : Char} (h : c ∈ (Number.takeDigits cs).1) :
    isInner c = true := by
  have hall : outers.all (fun d => !d.isDigit) = true := by decide
  have hd : c.isDigit = true := List.all_eq_true.mp List.all_takeWhile c h
  refine isInner_of_not_mem fun hm => ?_
  have hc := List.all_eq_true.mp hall c hm
  simp [hd] at hc

theorem isInner_takeFraction {cs : List Char} {c : Char} (h : c ∈ (takeFraction cs).1) :
    isInner c = true := by
  unfold takeFraction at h
  split at h
  · rename_i cs
    split at h
    · simp at h
    · rename_i digits rest _ he
      rcases List.mem_cons.mp h with rfl | h
      · decide
      · have hd : c ∈ (Number.takeDigits cs).1 := by
          rw [he]
          exact h
        exact isInner_takeDigits hd
  · simp at h

theorem isInner_takeSignText {cs : List Char} {c : Char} (h : c ∈ (takeSignText cs).1) :
    isInner c = true := by
  unfold takeSignText at h
  split at h
  · rw [List.mem_singleton.mp h]
    decide
  · rw [List.mem_singleton.mp h]
    decide
  · simp at h

theorem isInner_takeExponent {cs : List Char} {c : Char} (h : c ∈ (takeExponent cs).1) :
    isInner c = true := by
  unfold takeExponent at h
  split at h
  · rename_i e rest
    split at h
    · rename_i hexp
      simp only at h
      split at h
      · simp at h
      · rename_i digits rest' _ he
        simp only [List.cons_append, List.mem_cons, List.mem_append] at h
        rcases h with rfl | h | h
        · simp only [Bool.or_eq_true, beq_iff_eq] at hexp
          rcases hexp with rfl | rfl <;> decide
        · exact isInner_takeSignText h
        · have hd : c ∈ (Number.takeDigits (takeSignText rest).2).1 := by
            rw [he]
            exact h
          exact isInner_takeDigits hd
    · simp at h
  · simp at h

/-- What is left goes on with a character that is not an inner one, if with any. -/
def Outer (rest : List Char) : Prop := ∀ c ∈ rest.head?, isInner c = false

theorem takeWhile_isInner {s rest : List Char} (hs : ∀ c ∈ s, isInner c = true)
    (hrest : Outer rest) : (s ++ rest).takeWhile isInner = s := by
  rw [List.takeWhile_append_of_pos hs]
  cases rest with
  | nil => simp
  | cons c rest => simp [List.takeWhile_cons_of_neg, hrest c rfl]

theorem outer_of_ends {rest : List Char} (h : Ends (rulesOf .operation) rest) : Outer rest := by
  intro c hc
  rw [isInner_eq_false]
  rcases mem_of_stopsAt (h c hc) with hm | ⟨he, -⟩
  · have hsub : separators ⊆ outers := by simp [separators, outers]
    exact hsub hm
  · simp [rulesOf] at he

theorem longestMatch?_empty (cs : List Char) : ({} : OperatorTable).longestMatch? cs = none := rfl

theorem outer_of_endsNumber {rest : List Char} (h : endsNumber {} rest = true) : Outer rest := by
  intro c hc
  cases rest with
  | nil => simp at hc
  | cons d rest =>
    simp only [List.head?_cons, Option.mem_def, Option.some.injEq] at hc
    subst hc
    by_cases hslash : d = '/'
    · subst hslash
      decide
    · simp only [endsNumber, longestMatch?_empty, Option.isSome_none, Bool.or_false,
        Bool.or_eq_true] at h
      rcases h with h | h
      · simp [isInner, h]
      · unfold afterComment? at h
        split at h
        · rename_i he
          exact absurd (List.cons.inj he).1 hslash
        · rename_i he
          exact absurd (List.cons.inj he).1 hslash
        · simp at h

/-- A number at the start of a bare word is all of it: both end before the first character that is
not an inner one. -/
theorem numberLiteral?_bare {s rest digits : List Char} (hs : ∀ c ∈ s, BareChar c)
    (hrest : Ends (rulesOf .operation) rest)
    (h : numberLiteral? {} (s ++ rest) = some digits) : digits = s := by
  unfold numberLiteral? at h
  simp only at h
  split at h
  · simp at h
  · rename_i hend
    simp only [Option.some.injEq] at h
    generalize hcs : s ++ rest = cs at h hend
    have h₁ := takeDigits_append cs
    have h₂ := takeFraction_append (Number.takeDigits cs).2
    have h₃ := takeExponent_append (takeFraction (Number.takeDigits cs).2).2
    generalize hlast : (takeExponent (takeFraction (Number.takeDigits cs).2).2).2 = last at h₃ hend
    have happ : digits ++ last = cs := by
      rw [← h, List.append_assoc, h₃, List.append_assoc, h₂, h₁]
    have hinner : ∀ c ∈ digits, isInner c = true := by
      intro c hc
      rw [← h, List.mem_append, List.mem_append] at hc
      rcases hc with (hc | hc) | hc
      · exact isInner_takeDigits hc
      · exact isInner_takeFraction hc
      · exact isInner_takeExponent hc
    simp only [Bool.or_eq_true, Bool.not_eq_true', not_or, Bool.not_eq_false] at hend
    have hlast : Outer last := outer_of_endsNumber hend.2
    calc digits = (digits ++ last).takeWhile isInner := (takeWhile_isInner hinner hlast).symm
      _ = (s ++ rest).takeWhile isInner := by rw [happ, hcs]
      _ = s := takeWhile_isInner (fun c hc => isInner_of_bareChar (hs c hc)) (outer_of_ends hrest)

end ConfigScript.Scan
