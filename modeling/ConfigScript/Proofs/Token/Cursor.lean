import ConfigScript.Proofs.Token.Fronts

/-! # Reading goes forward

Every reader of the text ends at a place that is reached by dropping characters from the place it
started at, with the position counted along. A token other than the end of file takes at least one
character beyond the blanks before it, as long as no sign is spelled with nothing. -/

namespace ConfigScript

namespace Cursor

/-- The second place is the first one after some characters. -/
def Reaches (c d : Cursor) : Prop :=
  ∃ used : List Char, c.rest = used ++ d.rest ∧ d.pos = c.pos + used.length

theorem Reaches.refl (c : Cursor) : c.Reaches c := ⟨[], rfl, rfl⟩

theorem Reaches.trans {c d e : Cursor} (h : c.Reaches d) (g : d.Reaches e) : c.Reaches e := by
  obtain ⟨us, hr, hp⟩ := h
  obtain ⟨vs, gr, gp⟩ := g
  refine ⟨us ++ vs, ?_, ?_⟩
  · rw [hr, gr, List.append_assoc]
  · rw [gp, hp, List.length_append, Nat.add_assoc]

theorem Reaches.length_le {c d : Cursor} (h : c.Reaches d) : d.rest.length ≤ c.rest.length := by
  obtain ⟨us, hr, -⟩ := h
  rw [hr, List.length_append]
  omega

theorem Reaches.pos_add {c d : Cursor} (h : c.Reaches d) :
    d.pos + d.rest.length = c.pos + c.rest.length := by
  obtain ⟨us, hr, hp⟩ := h
  rw [hr, hp, List.length_append]
  omega

/-- A place in a text: its rest is the text from its position on. -/
theorem Reaches.rest_eq {cs : List Char} {c : Cursor} (h : (start cs).Reaches c) :
    c.rest = cs.drop c.pos ∧ c.pos ≤ cs.length := by
  obtain ⟨us, hr, hp⟩ := h
  simp only [start, Nat.zero_add] at hr hp
  subst hr
  simp [hp]

theorem reaches_drop (p n : Nat) (cs : List Char) (h : n ≤ cs.length) :
    Reaches ⟨p, cs⟩ ⟨p + n, cs.drop n⟩ :=
  ⟨cs.take n, (List.take_append_drop n cs).symm, by simp [Nat.min_eq_left h]⟩

theorem reaches_cons (p : Nat) (c : Char) (cs : List Char) : Reaches ⟨p, c :: cs⟩ ⟨p + 1, cs⟩ :=
  ⟨[c], rfl, rfl⟩

theorem reaches_suffix {cs rest : List Char} (p : Nat) (h : rest <:+ cs) :
    Reaches ⟨p, cs⟩ ⟨p + (cs.length - rest.length), rest⟩ := by
  obtain ⟨us, rfl⟩ := h
  exact ⟨us, rfl, by simp⟩

end Cursor

namespace Scan

open Cursor

/-! ## Blanks and comments -/

theorem afterBlock?_suffix {cs rest : List Char} (h : afterBlock? cs = some rest) :
    rest <:+ cs := by
  fun_induction afterBlock? cs with
  | case1 => simp at h
  | case2 cs =>
    simp only [Option.some.injEq] at h
    subst h
    exact ⟨['*', '/'], rfl⟩
  | case3 c cs _ ih => exact (ih h).trans (List.suffix_cons c cs)

theorem afterComment?_suffix {cs rest : List Char} {closed : Bool}
    (h : afterComment? cs = some (rest, closed)) : rest <:+ cs := by
  unfold afterComment? at h
  split at h
  · rename_i cs
    simp only [Option.some.injEq, Prod.mk.injEq] at h
    rw [← h.1]
    exact (List.dropWhile_suffix _).trans ⟨['/', '/'], rfl⟩
  · rename_i cs
    split at h
    · rename_i rest' hr
      simp only [Option.some.injEq, Prod.mk.injEq] at h
      rw [← h.1]
      exact (afterBlock?_suffix hr).trans ⟨['/', '*'], rfl⟩
    · simp only [Option.some.injEq, Prod.mk.injEq] at h
      rw [← h.1]
      exact List.nil_suffix
  · simp at h

theorem drop_afterComment? {cs rest : List Char} {closed : Bool}
    (h : afterComment? cs = some (rest, closed)) : cs.drop (cs.length - rest.length) = rest :=
  (List.suffix_iff_eq_drop.mp (afterComment?_suffix h)).symm

theorem reaches_join (pos : Nat) (c : Char) {rest : List Char} (h : rest.head? == some '\n') :
    Reaches ⟨pos, c :: rest⟩ ⟨pos + 2, rest.drop 1⟩ := by
  cases rest with
  | nil => simp at h
  | cons d ds => exact ⟨[c, d], rfl, rfl⟩

theorem skipBlank_reaches (pos : Nat) (cs : List Char) :
    Reaches ⟨pos, cs⟩ (skipBlank pos cs).1 := by
  fun_induction skipBlank pos cs with
  | case1 pos => exact .refl _
  | case2 pos c rest _ ih => exact (reaches_cons pos c rest).trans ih
  | case3 pos c rest _ hj ih =>
    simp only [Bool.and_eq_true] at hj
    exact (reaches_join pos c hj.2).trans ih
  | case4 pos c rest _ _ after closed hk _ r ih =>
    exact (reaches_suffix pos (afterComment?_suffix hk)).trans ih
  | case5 pos c rest => exact .refl _

theorem skipBlank_stops (pos : Nat) (cs : List Char) {c : Char} {rest : List Char}
    (h : (skipBlank pos cs).1.rest = c :: rest) :
    isSpacing c = false ∧ afterComment? (c :: rest) = none := by
  fun_induction skipBlank pos cs with
  | case1 pos => simp at h
  | case2 pos c rest _ ih => exact ih h
  | case3 pos c rest _ _ ih => exact ih h
  | case4 pos c rest _ _ after closed hk _ r ih => exact ih h
  | case5 pos c rest hs _ hk =>
    simp only [List.cons.injEq] at h
    obtain ⟨rfl, rfl⟩ := h
    exact ⟨by simpa using hs, hk⟩

/-! ## Escapes -/

theorem hexValue?_length {n v x : Nat} {cs : List Char} (h : Text.hexValue? n v cs = some x) :
    n ≤ cs.length := by
  induction n generalizing v cs with
  | zero => exact Nat.zero_le _
  | succ n ih =>
    cases cs with
    | nil => simp [Text.hexValue?] at h
    | cons c cs =>
      obtain ⟨d, -, hd⟩ := Option.bind_eq_some_iff.mp h
      exact Nat.succ_le_succ (ih hd)

theorem hexChar?_length {n : Nat} {d : Char} {cs : List Char} (h : hexChar? n cs = some d) :
    n ≤ cs.length := by
  obtain ⟨v, hv, -⟩ := Option.bind_eq_some_iff.mp h
  exact hexValue?_length hv

theorem unicodeEscape_used_le (policy : UnicodePolicy) (letter : Char) (n backslash : Nat)
    (cs : List Char) : (unicodeEscape policy letter n backslash cs).used ≤ cs.length + 1 := by
  unfold unicodeEscape
  split
  · rename_i d hd
    have := hexChar?_length hd
    simp only
    omega
  · simp

theorem escape_used_le (policy : UnicodePolicy) (backslash : Nat) (cs : List Char) :
    (escape policy backslash cs).used ≤ cs.length := by
  unfold escape
  split
  · exact Nat.le_refl 0
  · simp
  · simp
  · simp
  · exact unicodeEscape_used_le policy 'u' 4 backslash _
  · exact unicodeEscape_used_le policy 'U' 8 backslash _
  · simp

theorem reaches_escape (policy : UnicodePolicy) (pos : Nat) (c : Char) (rest : List Char) :
    Reaches ⟨pos, c :: rest⟩
      ⟨pos + 1 + (escape policy pos rest).used, rest.drop (escape policy pos rest).used⟩ :=
  (reaches_cons pos c rest).trans (reaches_drop _ _ _ (escape_used_le policy pos rest))

/-! ## Words and quoted texts -/

theorem word_reaches (policy : UnicodePolicy) (r : WordRules) (operators : Option OperatorTable)
    (blanks : List Char) (pos : Nat) (cs : List Char) :
    Reaches ⟨pos, cs⟩ (word policy r operators blanks pos cs).after := by
  fun_induction word policy r operators blanks pos cs with
  | case1 blanks pos => exact .refl _
  | case2 blanks pos c rest => exact .refl _
  | case3 blanks pos c rest _ _ ih => exact (reaches_cons pos c rest).trans ih
  | case4 blanks pos c rest _ hj ih =>
    simp only [Bool.and_eq_true] at hj
    exact (reaches_join pos c hj.2).trans ih
  | case5 blanks pos c rest => exact .refl _
  | case6 blanks pos c rest _ _ after closed hk _ w ih =>
    exact (reaches_suffix pos (afterComment?_suffix hk)).trans ih
  | case7 blanks pos c rest => exact .refl _
  | case8 blanks pos c rest _ _ _ _ _ e w ih => exact (reaches_escape policy pos c rest).trans ih
  | case9 blanks pos c rest _ _ _ _ _ w ih => exact (reaches_cons pos c rest).trans ih

theorem word_length_lt (policy : UnicodePolicy) {r : WordRules} {operators : Option OperatorTable}
    (blanks : List Char) (pos : Nat) {c : Char} {rest : List Char} (hs : isSpacing c = false)
    (hk : afterComment? (c :: rest) = none) (hr : r.stopsAt c = false)
    (ho : startsOperator operators (c :: rest) = false) :
    (word policy r operators blanks pos (c :: rest)).after.rest.length < rest.length + 1 := by
  by_cases hj : (c == '\\' && rest.head? == some '\n') = true
  · have h := (word_reaches policy r operators blanks (pos + 2) (rest.drop 1)).length_le
    rw [word_joined hj]
    simp only [List.length_drop] at h
    omega
  · rw [word_here (Bool.eq_false_iff.mp hs) hj hk, hr, ho, Bool.and_false, Bool.or_false,
      if_neg Bool.false_ne_true]
    split
    · have h := (word_reaches policy r operators []
        (pos + 1 + (escape policy pos rest).used)
        (rest.drop (escape policy pos rest).used)).length_le
      simp only [List.length_drop] at h
      simp only
      omega
    · have h := (word_reaches policy r operators [] (pos + 1) rest).length_le
      simp only at h ⊢
      omega

theorem skipMargin_suffix (cs : List Char) : skipMargin cs <:+ cs := by
  unfold skipMargin
  split
  · rename_i rest h
    exact (List.suffix_cons '|' rest).trans (h ▸ List.dropWhile_suffix _)
  · exact List.suffix_refl _

theorem quoted_reaches (policy : UnicodePolicy) (quote : Char) (first pos : Nat) (cs : List Char) :
    Reaches ⟨pos, cs⟩ (quoted policy quote first pos cs).after := by
  fun_induction quoted policy quote first pos cs with
  | case1 pos => exact .refl _
  | case2 pos c rest => exact reaches_cons pos c rest
  | case3 pos c rest _ _ hj ih => exact (reaches_join pos c hj).trans ih
  | case4 pos c rest _ _ _ e w ih => exact (reaches_escape policy pos c rest).trans ih
  | case5 pos c rest _ _ _ rest' w ih =>
    exact ((reaches_cons pos c rest).trans (reaches_suffix _ (skipMargin_suffix rest))).trans ih
  | case6 pos c rest _ _ _ w ih => exact (reaches_cons pos c rest).trans ih

end Scan

end ConfigScript
