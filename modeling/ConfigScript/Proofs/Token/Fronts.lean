import ConfigScript.Token.Scan

/-! # Reading by what stands in front

The readers of blanks and of words, each as one equation for what it may meet next: a blank, a
joined line, a comment, a character that ends the word, an escape, or any other character. -/

namespace ConfigScript.Scan

variable {c : Char} {rest after : List Char} {closed : Bool} {pos : Nat}

/-! ## What excludes the rest -/

theorem ne_backslash_of_isSpacing (hs : isSpacing c = true) : c ≠ '\\' := by
  rintro rfl
  exact absurd hs (by decide)

theorem eq_slash_of_afterComment? {found : List Char × Bool}
    (hk : afterComment? (c :: rest) = some found) : c = '/' := by
  unfold afterComment? at hk
  split at hk
  · rename_i heq
    exact (List.cons.inj heq).1
  · rename_i heq
    exact (List.cons.inj heq).1
  · exact absurd hk.symm (Option.some_ne_none found)

theorem ne_backslash_of_afterComment? {found : List Char × Bool}
    (hk : afterComment? (c :: rest) = some found) : c ≠ '\\' := by
  rw [eq_slash_of_afterComment? hk]
  decide

theorem not_blank_of_afterComment? {found : List Char × Bool}
    (hk : afterComment? (c :: rest) = some found) :
    ¬isSpacing c = true ∧ ¬(c == '\\' && rest.head? == some '\n') = true := by
  obtain rfl := eq_slash_of_afterComment? hk
  exact ⟨by decide, by simp⟩

/-! ## Blanks -/

theorem skipBlank_spacing (hs : isSpacing c = true) :
    skipBlank pos (c :: rest) = skipBlank (pos + 1) rest := by
  rw [skipBlank, if_pos hs]

theorem skipBlank_comment (hk : afterComment? (c :: rest) = some (after, closed)) :
    skipBlank pos (c :: rest) =
      let r := skipBlank (pos + ((c :: rest).length - after.length)) after
      (r.1, commentReports pos closed ++ r.2) := by
  obtain ⟨hs, hj⟩ := not_blank_of_afterComment? hk
  rw [skipBlank, if_neg hs, if_neg hj]
  split
  · rename_i hk'
    rw [hk, Option.some.injEq, Prod.mk.injEq] at hk'
    obtain ⟨rfl, rfl⟩ := hk'
    rfl
  · rename_i hk'
    exact absurd (hk.symm.trans hk') (Option.some_ne_none _)

theorem skipBlank_stop (hs : ¬isSpacing c = true)
    (hj : ¬(c == '\\' && rest.head? == some '\n') = true) (hk : afterComment? (c :: rest) = none) :
    skipBlank pos (c :: rest) = (⟨pos, c :: rest⟩, []) := by
  rw [skipBlank, if_neg hs, if_neg hj]
  split
  · rename_i hk'
    exact absurd (hk'.symm.trans hk) (Option.some_ne_none _)
  · rfl

/-! ## Words -/

variable {policy : UnicodePolicy} {r : WordRules} {operators : Option OperatorTable}
  {blanks : List Char}

theorem word_nil : word policy r operators blanks pos [] = ⟨[], false, ⟨pos, []⟩, []⟩ := by
  rw [word]

theorem word_spacing_stop (hs : isSpacing c = true) (hb : r.stopAtBlank = true) :
    word policy r operators blanks pos (c :: rest) = ⟨[], false, ⟨pos, c :: rest⟩, []⟩ := by
  rw [word, if_pos hs, if_pos hb]

theorem word_spacing (hs : isSpacing c = true) (hb : ¬r.stopAtBlank = true) :
    word policy r operators blanks pos (c :: rest)
      = word policy r operators (blanks ++ [c]) (pos + 1) rest := by
  rw [word, if_pos hs, if_neg hb]

theorem word_joined (hj : (c == '\\' && rest.head? == some '\n') = true) :
    word policy r operators blanks pos (c :: rest)
      = word policy r operators blanks (pos + 2) (rest.drop 1) := by
  have hs : ¬isSpacing c = true := fun hs =>
    ne_backslash_of_isSpacing hs (beq_iff_eq.mp (Bool.and_eq_true_iff.mp hj).1)
  rw [word, if_neg hs, if_pos hj]

theorem word_comment_stop (hk : afterComment? (c :: rest) = some (after, closed))
    (hb : r.stopAtBlank = true) :
    word policy r operators blanks pos (c :: rest) = ⟨[], false, ⟨pos, c :: rest⟩, []⟩ := by
  obtain ⟨hs, hj⟩ := not_blank_of_afterComment? hk
  rw [word, if_neg hs, if_neg hj]
  split
  · rw [if_pos hb]
  · rename_i hk'
    exact absurd (hk.symm.trans hk') (Option.some_ne_none _)

theorem word_comment (hk : afterComment? (c :: rest) = some (after, closed))
    (hb : ¬r.stopAtBlank = true) :
    word policy r operators blanks pos (c :: rest) =
      let w := word policy r operators blanks (pos + ((c :: rest).length - after.length)) after
      { w with reports := commentReports pos closed ++ w.reports } := by
  obtain ⟨hs, hj⟩ := not_blank_of_afterComment? hk
  rw [word, if_neg hs, if_neg hj]
  split
  · rename_i hk'
    rw [hk, Option.some.injEq, Prod.mk.injEq] at hk'
    obtain ⟨rfl, rfl⟩ := hk'
    rw [if_neg hb]
  · rename_i hk'
    exact absurd (hk.symm.trans hk') (Option.some_ne_none _)

/-- Where neither a blank nor a comment starts, the character decides. -/
theorem word_here (hs : ¬isSpacing c = true)
    (hj : ¬(c == '\\' && rest.head? == some '\n') = true) (hk : afterComment? (c :: rest) = none) :
    word policy r operators blanks pos (c :: rest) =
      if r.stopsAt c || (c != '\\' && startsOperator operators (c :: rest)) then
        ⟨[], false, ⟨pos, c :: rest⟩, []⟩
      else if c == '\\' then
        let e := escape policy pos rest
        let w := word policy r operators [] (pos + 1 + e.used) (rest.drop e.used)
        ⟨blanks ++ e.text ++ w.text, true, w.after, e.reports ++ w.reports⟩
      else
        let w := word policy r operators [] (pos + 1) rest
        { w with text := blanks ++ c :: w.text } := by
  rw [word, if_neg hs, if_neg hj]
  split
  · rename_i hk'
    exact absurd (hk'.symm.trans hk) (Option.some_ne_none _)
  · rfl

end ConfigScript.Scan
