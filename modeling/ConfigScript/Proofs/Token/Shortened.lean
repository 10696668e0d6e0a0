import ConfigScript.Proofs.Token.Steps
import ConfigScript.Proofs.Token.TwinTokens

/-! # Texts without a backslash

A backslash before `u` or `U` that digits do not follow makes no difference to what is read: the
text without it gives the same literal, which ends at the same place. Steps in front of the
backslash do not see it, and the steps behind its letter are the same. -/

namespace ConfigScript

/-! ## Operators without a letter -/

/-- No operator but a keyword is spelled with the letter. -/
def OperatorTable.Lacks (t : OperatorTable) (letter : Char) : Prop :=
  ∀ o ∈ t.operators, o.keyword = false → letter ∉ o.name.toList

theorem OperatorTable.longestMatch?_eq_none_iff {t : OperatorTable} {cs : List Char} :
    t.longestMatch? cs = none
      ↔ ∀ o ∈ t.operators, o.keyword = false → ¬o.name.toList <+: cs := by
  unfold longestMatch?
  rw [List.max?_eq_none_iff, List.map_eq_nil_iff, List.filter_eq_nil_iff]
  simp [List.isPrefixOf_iff_prefix]

theorem OperatorTable.Lacks.longestMatch?_eq_none {t : OperatorTable} {letter : Char}
    (h : t.Lacks letter) (front : List Char) {tail : List Char}
    (hn : t.longestMatch? (front ++ tail) = none) (rest : List Char) :
    t.longestMatch? (front ++ letter :: rest) = none := by
  rw [longestMatch?_eq_none_iff] at hn ⊢
  intro o ho hk hp
  have hfront : o.name.toList <+: front := (prefix_append_cons_iff (h o ho hk)).mp hp
  exact hn o ho hk (hfront.trans (List.prefix_append front tail))

namespace Scan

open Cursor

variable {policy : UnicodePolicy} {step : List Char → Option Step}
  {read : List Char → Nat → List Char → Word} {b c : Cursor} {cs : List Char} {letter : Char}

/-! ## Readers -/

theorem Comes.reaches (hstep : ∀ {cs s}, step cs = some s → s.used ≤ cs.length)
    (hc : Comes step c b) : c.Reaches b := by
  induction hc with
  | here c => exact .refl c
  | @on c d s first _ ih => exact (reaches_drop c.pos s.used c.rest (hstep first)).trans ih

theorem Follows.reaches (h : Follows policy step read) (hc : Comes step c b) : c.Reaches b :=
  hc.reaches fun hs => (h.used hs).2

theorem Follows.shift (h : Follows policy step read) (blanks cs : List Char) : ∃ text n, ∀ pos,
    (read blanks pos cs).text = text ∧ (read blanks pos cs).after = ⟨pos + n, cs.drop n⟩ := by
  cases hs : step cs with
  | none =>
    obtain ⟨n, hstops⟩ := h.stops hs
    obtain ⟨text, htext⟩ := hstops blanks
    exact ⟨text, n, fun pos => ⟨(htext pos).1, (htext pos).2.1⟩⟩
  | some s =>
    obtain ⟨hpos, hle⟩ := h.used hs
    obtain ⟨text, n, hrest⟩ := h.shift (s.piece.pending blanks) (cs.drop s.used)
    refine ⟨s.piece.added blanks ++ text, s.used + n, fun pos => ?_⟩
    obtain ⟨htext, hafter⟩ := hrest (pos + s.used)
    have hgoes := h.goes hs blanks pos
    exact ⟨by rw [hgoes.text, htext], by rw [hgoes.after, hafter, List.drop_drop, Nat.add_assoc]⟩
termination_by cs.length
decreasing_by
  rw [List.length_drop]
  omega

theorem Follows.beyond (h : Follows policy step read) (hc : Comes step c b)
    (hi : invalidEscape? b.rest = some letter) (blanks : List Char) :
    b.pos + 2 ≤ (read blanks c.pos c.rest).after.pos := by
  induction hc generalizing blanks with
  | here c =>
    obtain ⟨text, n, hread⟩ := h.shift [] (c.rest.drop 2)
    have hafter : (read blanks c.pos c.rest).after = (read [] (c.pos + 2) (c.rest.drop 2)).after :=
      (h.goes (h.invalid hi) blanks c.pos).after
    rw [hafter, (hread (c.pos + 2)).2]
    exact Nat.le_add_right _ _
  | @on c d s first _ ih =>
    rw [(h.goes first blanks c.pos).after]
    exact ih hi (s.piece.pending blanks)

/-! ## Without the backslash -/

/-- The same text up to the same place, which stands one character earlier. -/
structure Word.Shortened (v w : Word) : Prop where
  text : w.text = v.text
  rest : w.after.rest = v.after.rest
  pos : w.after.pos + 1 = v.after.pos

/-- The steps in front of an escape with this letter do not see its backslash, and the letter stands
for itself without it. -/
structure Overlooks (step : List Char → Option Step) (letter : Char) : Prop where
  alone (rest : List Char) : step (letter :: rest) = some ⟨1, .text [letter]⟩
  front {front rest : List Char} {s : Step} (hne : front ≠ [])
    (hs : step (front ++ '\\' :: letter :: rest) = some s) (hle : s.used ≤ front.length) :
    step (front ++ letter :: rest) = some s

theorem Follows.shortened_here (h : Follows policy step read) (ho : Overlooks step letter)
    {rest : List Char} (hi : invalidEscape? ('\\' :: letter :: rest) = some letter)
    (blanks : List Char) (pos : Nat) :
    (read blanks pos ('\\' :: letter :: rest)).Shortened (read blanks pos (letter :: rest)) := by
  have hlong := h.goes (h.invalid hi) blanks pos
  have hshort := h.goes (ho.alone rest) blanks pos
  obtain ⟨text, n, hread⟩ := h.shift [] rest
  obtain ⟨htext, hafter⟩ := hread (pos + 1)
  obtain ⟨htext', hafter'⟩ := hread (pos + 2)
  refine ⟨?_, ?_, ?_⟩
  · rw [hshort.text, hlong.text]
    exact congrArg (_ ++ ·) (htext.trans htext'.symm)
  · rw [hshort.after, hlong.after]
    exact congrArg Cursor.rest hafter |>.trans (congrArg Cursor.rest hafter').symm
  · rw [hshort.after, hlong.after]
    have hpos : (read [] (pos + 1) rest).after.pos + 1 = (read [] (pos + 2) rest).after.pos := by
      rw [hafter, hafter']
      simp only
      omega
    exact hpos

/-- A reader that comes to an invalid escape reads on behind its letter, be the backslash there or
not. -/
theorem Follows.shortened (h : Follows policy step read) (ho : Overlooks step letter)
    (hc : Comes step c b) (hi : invalidEscape? b.rest = some letter) :
    ∃ front rest, c.rest = front ++ '\\' :: letter :: rest ∧ b.pos = c.pos + front.length
      ∧ ∀ blanks, (read blanks c.pos c.rest).Shortened
        (read blanks c.pos (front ++ letter :: rest)) := by
  induction hc with
  | here c =>
    obtain ⟨rest, hrest, -, -⟩ := invalidEscape?_eq_some hi
    rw [hrest] at hi ⊢
    exact ⟨[], rest, rfl, rfl, fun blanks => h.shortened_here ho hi blanks c.pos⟩
  | @on c d s first _ ih =>
    obtain ⟨front, rest, hd, hb, hread⟩ := ih hi
    obtain ⟨hpos, hle⟩ := h.used first
    -- What the first step takes stands in front of what the others take.
    obtain ⟨taken, htaken, hlength⟩ := reaches_drop c.pos s.used c.rest hle
    have hused : s.used = taken.length := Nat.add_left_cancel hlength
    have hrest : c.rest = taken ++ front ++ '\\' :: letter :: rest := by
      rw [List.append_assoc, ← hd]
      exact htaken
    have hne : taken ++ front ≠ [] := by
      intro hnil
      rw [List.append_eq_nil_iff] at hnil
      simp [hused, hnil.1] at hpos
    have hshort : step (taken ++ front ++ letter :: rest) = some s := by
      refine ho.front hne (hrest ▸ first) ?_
      rw [hused, List.length_append]
      exact Nat.le_add_right _ _
    have hdrop : (taken ++ front ++ letter :: rest).drop s.used = front ++ letter :: rest := by
      rw [hused, List.append_assoc, List.drop_left]
    refine ⟨taken ++ front, rest, hrest, ?_, fun blanks => ?_⟩
    · rw [hb, List.length_append, ← hused, ← Nat.add_assoc]
      rfl
    · have hv := h.goes first blanks c.pos
      have hw := h.goes hshort blanks c.pos
      rw [hdrop] at hw
      have hvw := hread (s.piece.pending blanks)
      refine ⟨?_, ?_, ?_⟩
      · rw [hv.text, hw.text]
        exact congrArg (_ ++ ·) hvw.text
      · rw [hv.after, hw.after]
        exact hvw.rest
      · rw [hv.after, hw.after]
        exact hvw.pos

section

variable (hletter : letter = 'u' ∨ letter = 'U') (front rest : List Char)
include hletter

theorem head?_overlooked :
    ((front ++ '\\' :: letter :: rest).head? == some '\n')
      = ((front ++ letter :: rest).head? == some '\n') := by
  cases front with
  | nil => rcases hletter with rfl | rfl <;> rfl
  | cons c front => rfl

theorem hexValue?_overlooked (n v : Nat) :
    Text.hexValue? n v (front ++ '\\' :: letter :: rest)
      = Text.hexValue? n v (front ++ letter :: rest) := by
  induction front generalizing n v with
  | nil =>
    cases n with
    | zero => rfl
    | succ n => rcases hletter with rfl | rfl <;> rfl
  | cons c front ih =>
    cases n with
    | zero => rfl
    | succ n =>
      simp only [List.cons_append, Text.hexValue?]
      cases Text.hexDigit? c with
      | none => rfl
      | some d => exact ih n _

theorem escape_overlooked (c : Char) : escape .ignore 0 (c :: front ++ '\\' :: letter :: rest)
    = escape .ignore 0 (c :: front ++ letter :: rest) := by
  have hchar (n : Nat) : hexChar? n (front ++ '\\' :: letter :: rest)
      = hexChar? n (front ++ letter :: rest) := by
    rw [hexChar?, hexChar?, hexValue?_overlooked hletter]
  rw [List.cons_append, List.cons_append]
  by_cases hu : c = 'u'
  · rw [hu]
    simp only [escape, unicodeEscape, hchar]
  · by_cases hU : c = 'U'
    · rw [hU]
      simp only [escape, unicodeEscape, hchar]
    · obtain ⟨text, htext⟩ := escape_other hu hU
      rw [htext, htext]

theorem charStep_overlooked {c : Char}
    (hle : (charStep c (front ++ '\\' :: letter :: rest)).used ≤ front.length + 1) :
    charStep c (front ++ letter :: rest) = charStep c (front ++ '\\' :: letter :: rest) := by
  by_cases hc : c = '\\'
  · subst hc
    cases front with
    | nil => simp [charStep, escape] at hle
    | cons d front =>
      rw [charStep, charStep, if_pos (beq_self_eq_true _), if_pos (beq_self_eq_true _),
        escape_overlooked hletter]
  · have hne : (c == '\\') = false := by simpa using hc
    rw [charStep, charStep, hne, if_neg Bool.false_ne_true, if_neg Bool.false_ne_true]

/-! ### Comments and margins -/

theorem afterBlock?_overlooked {after : List Char}
    (hk : afterBlock? (front ++ '\\' :: letter :: rest) = some after)
    (hle : ('\\' :: letter :: rest).length ≤ after.length) :
    ∃ left, after = left ++ '\\' :: letter :: rest
      ∧ afterBlock? (front ++ letter :: rest) = some (left ++ letter :: rest) := by
  have hother {c : Char} {cs : List Char} (h : ¬(c = '*' ∧ cs.head? = some '/')) :
      afterBlock? (c :: cs) = afterBlock? cs := by
    refine afterBlock?.eq_3 c cs fun cs' hc hcs => h ⟨hc, ?_⟩
    rw [hcs]
    rfl
  induction front with
  | nil =>
    rw [List.nil_append, hother (by simp)] at hk
    have hshort := afterBlock?_length_le hk
    simp only [List.length_cons] at hshort hle
    omega
  | cons c front ih =>
    by_cases hends : c = '*' ∧ (front ++ '\\' :: letter :: rest).head? = some '/'
    · obtain ⟨rfl, hslash⟩ := hends
      cases front with
      | nil => simp at hslash
      | cons d front =>
        obtain rfl : d = '/' := by simpa using hslash
        exact ⟨front, (Option.some.inj hk).symm, rfl⟩
    · have hends' : ¬(c = '*' ∧ (front ++ letter :: rest).head? = some '/') := by
        rintro ⟨hc, hslash⟩
        cases front with
        | nil => rcases hletter with rfl | rfl <;> simp at hslash
        | cons d front => exact hends ⟨hc, hslash⟩
      rw [List.cons_append, hother hends] at hk
      rw [List.cons_append, hother hends']
      exact ih hk

omit hletter in
theorem dropWhile_overlooked
    (hle : ('\\' :: letter :: rest).length
      ≤ ((front ++ '\\' :: letter :: rest).dropWhile (· != '\n')).length) :
    ∃ left, (front ++ '\\' :: letter :: rest).dropWhile (· != '\n')
        = left ++ '\\' :: letter :: rest
      ∧ (front ++ letter :: rest).dropWhile (· != '\n') = left ++ letter :: rest := by
  induction front with
  | nil =>
    have hshort := length_dropWhile_le (· != '\n') (letter :: rest)
    rw [List.nil_append, List.dropWhile_cons_of_pos (by decide)] at hle
    simp only [List.length_cons] at hshort hle
    omega
  | cons c front ih =>
    by_cases hc : c = '\n'
    · subst hc
      exact ⟨'\n' :: front, rfl, rfl⟩
    · rw [List.cons_append, List.dropWhile_cons_of_pos (by simpa using hc)] at hle ⊢
      rw [List.cons_append, List.dropWhile_cons_of_pos (by simpa using hc)]
      exact ih hle

theorem startsComment_overlooked : startsComment (front ++ letter :: rest)
    = startsComment (front ++ '\\' :: letter :: rest) := by
  cases front with
  | nil =>
    have hne : letter ≠ '/' := by rcases hletter with rfl | rfl <;> decide
    rw [List.nil_append, List.nil_append, startsComment_of_ne hne, startsComment_of_ne (by decide)]
  | cons c front =>
    cases front with
    | nil => rcases hletter with rfl | rfl <;> simp [startsComment]
    | cons d front => rfl

theorem afterComment?_overlooked {after : List Char} {closed : Bool}
    (hk : afterComment? (front ++ '\\' :: letter :: rest) = some (after, closed))
    (hle : ('\\' :: letter :: rest).length ≤ after.length) :
    ∃ left, after = left ++ '\\' :: letter :: rest
      ∧ afterComment? (front ++ letter :: rest) = some (left ++ letter :: rest, closed) := by
  have hstarts : startsComment (front ++ '\\' :: letter :: rest) = true := by
    rw [← afterComment?_isSome, hk]
    rfl
  match front with
  | [] => simp [startsComment] at hstarts
  | [c] => simp [startsComment] at hstarts
  | c :: d :: front =>
    simp only [List.cons_append, startsComment, Bool.and_eq_true, Bool.or_eq_true,
      beq_iff_eq] at hstarts
    obtain ⟨rfl, rfl | rfl⟩ := hstarts
    · simp only [List.cons_append, afterComment?, Option.some.injEq, Prod.mk.injEq] at hk ⊢
      obtain ⟨rfl, rfl⟩ := hk
      obtain ⟨left, hlong, hshort⟩ := dropWhile_overlooked front rest hle
      exact ⟨left, hlong, hshort, rfl⟩
    · simp only [List.cons_append, afterComment?] at hk ⊢
      cases hb : afterBlock? (front ++ '\\' :: letter :: rest) with
      | none =>
        rw [hb] at hk
        obtain ⟨rfl, -⟩ := Prod.mk.inj (Option.some.inj hk)
        simp at hle
      | some found =>
        rw [hb] at hk
        obtain ⟨rfl, rfl⟩ := Prod.mk.inj (Option.some.inj hk)
        obtain ⟨left, hlong, hshort⟩ := afterBlock?_overlooked hletter front rest hb hle
        exact ⟨left, hlong, by rw [hshort]⟩

omit hletter in
theorem skipMargin_append {c : Char} (hspacing : isSpacing c = false) (hbar : c ≠ '|')
    (cs : List Char) : skipMargin (front ++ c :: cs)
      = (match front.dropWhile isSpacing with
        | '|' :: left => left
        | _ => front) ++ c :: cs := by
  have hdrop : (front ++ c :: cs).dropWhile isSpacing = front.dropWhile isSpacing ++ c :: cs := by
    rw [List.dropWhile_append, List.dropWhile_cons_of_neg (by simp [hspacing])]
    cases front.dropWhile isSpacing <;> rfl
  rw [skipMargin, hdrop]
  cases front.dropWhile isSpacing with
  | nil =>
    split
    · exact absurd (List.cons.inj ‹_›).1 hbar
    · rfl
  | cons d left =>
    by_cases hd : d = '|'
    · subst hd
      rfl
    · rw [List.cons_append]
      split
      · exact absurd (List.cons.inj ‹_›).1 hd
      · split
        · exact absurd (List.cons.inj ‹_›).1 hd
        · rfl

theorem skipMargin_overlooked : ∃ left, skipMargin (front ++ '\\' :: letter :: rest)
      = left ++ '\\' :: letter :: rest
    ∧ skipMargin (front ++ letter :: rest) = left ++ letter :: rest :=
  ⟨_, skipMargin_append front (by decide) (by decide) _,
    skipMargin_append front (by rcases hletter with rfl | rfl <;> rfl)
      (by rcases hletter with rfl | rfl <;> decide) _⟩

theorem blankStep_overlooked (c : Char) {s : Step}
    (hs : blankStep (c :: front ++ '\\' :: letter :: rest) = some s)
    (hle : s.used ≤ (c :: front).length) : blankStep (c :: front ++ letter :: rest) = some s := by
  have hhead := head?_overlooked hletter front rest
  rw [List.cons_append] at hs ⊢
  by_cases hspacing : isSpacing c = true
  · rwa [blankStep_blank hspacing] at hs ⊢
  · by_cases hj : (c == '\\' && (front ++ '\\' :: letter :: rest).head? == some '\n') = true
    · rw [blankStep_joined hspacing hj] at hs
      rwa [blankStep_joined hspacing (hhead ▸ hj)]
    · cases hk : afterComment? (c :: front ++ '\\' :: letter :: rest) with
      | none => simp [blankStep_none hspacing hj hk] at hs
      | some found =>
        obtain ⟨after, closed⟩ := found
        rw [blankStep_comment hspacing hj hk] at hs
        obtain rfl := Option.some.inj hs
        have hlt := afterComment?_length_lt hk
        simp only [List.cons_append, List.length_cons, List.length_append] at hle hlt
        obtain ⟨left, rfl, hk'⟩ := afterComment?_overlooked hletter (c :: front) rest hk (by
          simp only [List.length_cons]
          omega)
        rw [List.cons_append] at hk'
        rw [blankStep_comment hspacing (hhead ▸ hj) hk']
        simp only [List.length_cons, List.length_append]
        congr 2
        omega

theorem blankStep_none_overlooked (c : Char)
    (hs : blankStep (c :: front ++ '\\' :: letter :: rest) = none) :
    blankStep (c :: front ++ letter :: rest) = none := by
  have hhead := head?_overlooked hletter front rest
  rw [List.cons_append] at hs ⊢
  by_cases hspacing : isSpacing c = true
  · simp [blankStep_blank hspacing] at hs
  · by_cases hj : (c == '\\' && (front ++ '\\' :: letter :: rest).head? == some '\n') = true
    · simp [blankStep_joined hspacing hj] at hs
    · cases hk : afterComment? (c :: front ++ '\\' :: letter :: rest) with
      | some found => simp [blankStep_comment hspacing hj hk] at hs
      | none =>
        have hstarts := startsComment_overlooked hletter (c :: front) rest
        rw [← afterComment?_isSome (c :: front ++ '\\' :: letter :: rest), hk] at hstarts
        exact blankStep_none hspacing (hhead ▸ hj) (afterComment?_eq_none hstarts)

end

theorem blankStep_letter (h : letter = 'u' ∨ letter = 'U') (rest : List Char) :
    blankStep (letter :: rest) = none := by
  have hspacing : ¬isSpacing letter = true := by rcases h with rfl | rfl <;> decide
  have hbackslash : letter ≠ '\\' := by rcases h with rfl | rfl <;> decide
  have hslash : letter ≠ '/' := by rcases h with rfl | rfl <;> decide
  exact blankStep_none hspacing (by simp [hbackslash])
    (afterComment?_eq_none (startsComment_of_ne hslash rest))

theorem startsOperator_overlooked {r : WordRules} {operators : Option OperatorTable}
    (ho : ∀ t ∈ operators, t.Lacks letter ∧ ∃ tail, t.longestMatch? tail = none) (c : Char)
    (front rest : List Char)
    (h : (r.stopsAt c || (c != '\\' && startsOperator operators (c :: (front ++ letter :: rest))))
      = true) :
    (r.stopsAt c || (c != '\\'
      && startsOperator operators (c :: (front ++ '\\' :: letter :: rest)))) = true := by
  cases hm : startsOperator operators (c :: (front ++ '\\' :: letter :: rest)) with
  | true =>
    rw [Bool.or_eq_true, Bool.and_eq_true] at h ⊢
    exact h.imp_right fun hstarts => ⟨hstarts.1, rfl⟩
  | false =>
    have hshort : startsOperator operators (c :: (front ++ letter :: rest)) = false := by
      cases operators with
      | none => rfl
      | some t =>
        have hnone : t.longestMatch? (c :: front ++ '\\' :: letter :: rest) = none :=
          Option.not_isSome_iff_eq_none.mp (Bool.eq_false_iff.mp hm)
        exact congrArg Option.isSome ((ho t rfl).1.longestMatch?_eq_none (c :: front) hnone rest)
    rwa [hshort] at h

/-- A word that comes to an escape overlooks its backslash if its letter is in no operator. -/
theorem overlooks_word (hletter : letter = 'u' ∨ letter = 'U') (r : WordRules)
    {operators : Option OperatorTable}
    (ho : ∀ t ∈ operators, t.Lacks letter ∧ ∃ tail, t.longestMatch? tail = none) :
    Overlooks (wordStep r operators) letter where
  alone rest := by
    have hbackslash : letter ≠ '\\' := by rcases hletter with rfl | rfl <;> decide
    have hgoes : r.stopsAt letter = false := by
      rcases hletter with rfl | rfl <;> simp [WordRules.stopsAt]
    have hstarts : startsOperator operators (letter :: rest) = false := by
      cases operators with
      | none => rfl
      | some t =>
        obtain ⟨hlacks, tail, htail⟩ := ho t rfl
        exact congrArg Option.isSome (hlacks.longestMatch?_eq_none [] htail rest)
    simp [wordStep, blankStep_letter hletter, hgoes, hstarts, charStep, hbackslash]
  front {front rest s} hne hs hle := by
    cases front with
    | nil => exact absurd rfl hne
    | cons c front =>
      unfold wordStep at hs ⊢
      cases hblank : blankStep (c :: front ++ '\\' :: letter :: rest) with
      | some step =>
        rw [hblank] at hs
        simp only at hs
        split at hs
        · simp at hs
        · rename_i hstays
          obtain rfl := Option.some.inj hs
          rw [blankStep_overlooked hletter front rest c hblank hle]
          exact if_neg hstays
      | none =>
        rw [hblank] at hs
        rw [blankStep_none_overlooked hletter front rest c hblank]
        simp only [List.cons_append] at hs ⊢
        split at hs
        · simp at hs
        · rename_i hstays
          obtain rfl := Option.some.inj hs
          rw [if_neg (fun hstops => hstays (startsOperator_overlooked ho c front rest hstops)),
            charStep_overlooked hletter front rest hle]

theorem overlooks_quoted (hletter : letter = 'u' ∨ letter = 'U') {quote : Char}
    (hq : quote = '"' ∨ quote = '\'') : Overlooks (quotedStep quote) letter where
  alone rest := by
    have hbackslash : letter ≠ '\\' := by rcases hletter with rfl | rfl <;> decide
    have hbreak : letter ≠ '\n' := by rcases hletter with rfl | rfl <;> decide
    have hquote : letter ≠ quote := by
      rcases hletter with rfl | rfl <;> rcases hq with rfl | rfl <;> decide
    simp [quotedStep, charStep, hbackslash, hbreak, hquote]
  front {front rest s} hne hs hle := by
    cases front with
    | nil => exact absurd rfl hne
    | cons c front =>
      have hhead := head?_overlooked hletter front rest
      simp only [List.cons_append, quotedStep] at hs ⊢
      rw [← hhead]
      split at hs
      · simp at hs
      · rename_i hc
        rw [if_neg hc]
        split at hs
        · rename_i hj
          rwa [if_pos hj]
        · rename_i hj
          rw [if_neg hj]
          split at hs
          · rename_i hn
            obtain ⟨left, hlong, hshort⟩ := skipMargin_overlooked hletter front rest
            rw [if_pos hn, hshort, ← hs, hlong]
            simp only [List.length_append, Nat.add_sub_add_right]
          · rename_i hn
            obtain rfl := Option.some.inj hs
            rw [if_neg hn, charStep_overlooked hletter front rest hle]

/-! ## Tokens -/

theorem skipBlank_goes {s : Step} (h : blankStep cs = some s) (pos : Nat) :
    (skipBlank pos cs).1 = (skipBlank (pos + s.used) (cs.drop s.used)).1 := by
  fun_cases skipBlank pos cs with
  | case1 => simp [blankStep] at h
  | case2 c rest hs =>
    rw [blankStep_blank hs] at h
    obtain rfl := Option.some.inj h
    rfl
  | case3 c rest hs hj =>
    rw [blankStep_joined hs hj] at h
    obtain rfl := Option.some.inj h
    rfl
  | case4 c rest hs hj after closed hk =>
    rw [blankStep_comment hs hj hk] at h
    obtain rfl := Option.some.inj h
    simp only [drop_afterComment? hk]
    rfl
  | case5 c rest hs hj hk => simp [blankStep_none hs hj hk] at h

theorem skipBlank_rests (h : blankStep cs = none) (pos : Nat) :
    (skipBlank pos cs).1 = ⟨pos, cs⟩ := by
  fun_cases skipBlank pos cs with
  | case1 => rfl
  | case2 c rest hs => simp [blankStep_blank hs] at h
  | case3 c rest hs hj => simp [blankStep_joined hs hj] at h
  | case4 c rest hs hj after closed hk => simp [blankStep_comment hs hj hk] at h
  | case5 => rfl

theorem skipBlank_invalidEscapes (pos : Nat) (cs : List Char) :
    invalidEscapes (skipBlank pos cs).2 = [] := by
  fun_induction skipBlank pos cs with
  | case1 => rfl
  | case2 pos c rest hs ih => exact ih
  | case3 pos c rest hs hj ih => exact ih
  | case4 pos c rest hs hj after closed hk _ r ih =>
    rw [invalidEscapes_append, invalidEscapes_comment, ih]
    rfl
  | case5 => rfl

theorem skipBlank_overlooked (hletter : letter = 'u' ∨ letter = 'U') (rest : List Char)
    {left : List Char} (pos : Nat) (front : List Char)
    (h : (skipBlank pos (front ++ '\\' :: letter :: rest)).1.rest
      = left ++ '\\' :: letter :: rest) :
    (skipBlank pos (front ++ letter :: rest)).1
      = ⟨(skipBlank pos (front ++ '\\' :: letter :: rest)).1.pos, left ++ letter :: rest⟩ := by
  match front, h with
  | [], h =>
    have hbackslash := blankStep_escape hletter rest
    simp only [List.nil_append] at h ⊢
    rw [skipBlank_rests hbackslash] at h ⊢
    obtain rfl : [] = left := List.append_cancel_right ((List.nil_append _).trans h)
    exact skipBlank_rests (blankStep_letter hletter rest) pos
  | c :: front, h =>
    cases hs : blankStep (c :: front ++ '\\' :: letter :: rest) with
    | none =>
      have hs' := blankStep_none_overlooked hletter front rest c hs
      rw [skipBlank_rests hs] at h ⊢
      rw [skipBlank_rests hs', List.append_cancel_right h]
    | some s =>
      obtain ⟨hpos, hused⟩ := blankStep_used hs
      rw [skipBlank_goes hs] at h ⊢
      -- What is left holds the escape, so the step stays in front of it.
      have hle : s.used ≤ (c :: front).length := by
        have hlength := (skipBlank_reaches (pos + s.used)
          ((c :: front ++ '\\' :: letter :: rest).drop s.used)).length_le
        rw [h] at hlength
        simp only [List.length_drop, List.length_append, List.length_cons] at hlength hused ⊢
        omega
      have hdrop (cs : List Char) :
          (c :: front ++ cs).drop s.used = (c :: front).drop s.used ++ cs :=
        List.drop_append_of_le_length hle
      rw [skipBlank_goes (blankStep_overlooked hletter front rest c hs hle)]
      rw [hdrop] at h ⊢
      rw [hdrop]
      exact skipBlank_overlooked hletter rest (pos + s.used) _ h
termination_by front.length
decreasing_by
  rw [List.length_drop]
  omega

/-- How the literal of a token that begins here is read, and the place from where on. -/
def literalReader? (mode : ReadMode) (operators : OperatorTable) (c : Cursor) :
    Option ((List Char → Option Step) × Cursor) :=
  match c.rest with
  | [] => none
  | ch :: rest =>
    match sign? mode ch with
    | some _ => none
    | none =>
      if ch == '"' || ch == '\'' then some (quotedStep ch, ⟨c.pos + 1, rest⟩)
      else if mode = .operation then
        match operators.longestMatch? c.rest, numberLiteral? operators c.rest with
        | none, none => some (wordStep (rulesOf .operation) (some operators), c)
        | _, _ => none
      else some (wordStep (rulesOf mode) none, c)

/-- The ways to read the literal of a token that begins with a character. -/
inductive LiteralRead (mode : ReadMode) (operators : OperatorTable) (pos : Nat) (ch : Char)
    (cs : List Char) : (List Char → Option Step) → Cursor → Prop
  | quoted (hquote : (ch == '"' || ch == '\'') = true) :
    LiteralRead mode operators pos ch cs (quotedStep ch) ⟨pos + 1, cs⟩
  | operand (hquote : ¬(ch == '"' || ch == '\'') = true) (hop : mode = .operation)
    (hmatch : operators.longestMatch? (ch :: cs) = none)
    (hnumber : numberLiteral? operators (ch :: cs) = none) :
    LiteralRead mode operators pos ch cs (wordStep (rulesOf .operation) (some operators))
      ⟨pos, ch :: cs⟩
  | word (hquote : ¬(ch == '"' || ch == '\'') = true) (hop : ¬mode = .operation) :
    LiteralRead mode operators pos ch cs (wordStep (rulesOf mode) none) ⟨pos, ch :: cs⟩

theorem literalReader?_read {mode : ReadMode} {operators : OperatorTable} {start : Cursor}
    (h : literalReader? mode operators c = some (step, start)) :
    ∃ pos ch cs, c = ⟨pos, ch :: cs⟩ ∧ sign? mode ch = none
      ∧ LiteralRead mode operators pos ch cs step start := by
  obtain ⟨pos, cs⟩ := c
  cases cs with
  | nil => simp [literalReader?] at h
  | cons ch cs =>
    simp only [literalReader?] at h
    cases hs : sign? mode ch with
    | some kind => simp [hs] at h
    | none =>
      refine ⟨pos, ch, cs, rfl, hs, ?_⟩
      simp only [hs] at h
      split at h
      · rename_i hquote
        obtain ⟨rfl, rfl⟩ := Prod.mk.inj (Option.some.inj h)
        exact .quoted hquote
      · rename_i hquote
        split at h
        · rename_i hop
          split at h
          · rename_i hmatch hnumber
            obtain ⟨rfl, rfl⟩ := Prod.mk.inj (Option.some.inj h)
            exact .operand hquote hop hmatch hnumber
          · simp at h
        · rename_i hop
          obtain ⟨rfl, rfl⟩ := Prod.mk.inj (Option.some.inj h)
          exact .word hquote hop

/-- The literal of a token that begins here comes to an invalid escape. -/
def LiteralComes (mode : ReadMode) (operators : OperatorTable) (c b : Cursor) (letter : Char) :
    Prop :=
  ∃ step start, literalReader? mode operators c = some (step, start) ∧ Comes step start b
    ∧ invalidEscape? b.rest = some letter

theorem LiteralComes.letter_eq {mode : ReadMode} {operators : OperatorTable}
    (h : LiteralComes mode operators c b letter) : letter = 'u' ∨ letter = 'U' := by
  obtain ⟨-, -, -, -, hi⟩ := h
  obtain ⟨-, -, hletter, -⟩ := invalidEscape?_eq_some hi
  exact hletter

/-- The same token up to the same place, which stands one character earlier. -/
structure Lexeme.Shortened (l m : Lexeme) : Prop where
  literal : m.token.literal = l.token.literal
  rest : m.after.rest = l.after.rest
  pos : m.after.pos + 1 = l.after.pos

theorem ofQuoted_shortened {v w : Word} (h : v.Shortened w) (mode : ReadMode) (pos : Nat) :
    (ofQuoted mode pos v).Shortened (ofQuoted mode pos w) := by
  refine ⟨?_, h.rest, h.pos⟩
  unfold ofQuoted
  split
  · rfl
  · exact congrArg (some ∘ String.ofList) h.text

theorem ofWord_shortened {v w : Word} (h : v.Shortened w) (mode : ReadMode) {c d : Cursor}
    (hpos : d.pos = c.pos) (hv : c.pos + 2 ≤ v.after.pos) :
    (ofWord mode c v).Shortened (ofWord mode d w) := by
  have hw := h.pos
  unfold ofWord
  split
  · rw [if_neg (by omega), if_neg (by omega)]
    exact ⟨rfl, h.rest, h.pos⟩
  · exact ⟨congrArg (some ∘ String.ofList) h.text, h.rest, h.pos⟩

theorem sign?_letter (h : letter = 'u' ∨ letter = 'U') (mode : ReadMode) :
    sign? mode letter = none := by
  rcases h with rfl | rfl <;> rfl

theorem lexeme_word {mode : ReadMode} (operators : OperatorTable) (pos : Nat) {ch : Char}
    (hs : sign? mode ch = none) (hq : ¬(ch == '"' || ch == '\'') = true)
    (hop : ¬mode = .operation) (cs : List Char) : lexeme policy mode operators ⟨pos, ch :: cs⟩
      = ofWord mode ⟨pos, ch :: cs⟩ (word policy (rulesOf mode) none [] pos (ch :: cs)) := by
  rw [lexeme_cons, hs]
  simp only [if_neg hq, if_neg hop]

/-- The token that an operand without quotes is. -/
def ofOperand (operators : OperatorTable) (pos : Nat) (w : Word) : Lexeme :=
  let isKeyword := !w.escaped && operators.isKeyword (String.ofList w.text)
  ⟨.ofLiteral (if isKeyword then .keyword else .word) pos w.text, w.after, w.reports⟩

theorem lexeme_operand {operators : OperatorTable} (pos : Nat) {ch : Char}
    (hs : sign? .operation ch = none) (hq : ¬(ch == '"' || ch == '\'') = true) {cs : List Char}
    (hmatch : operators.longestMatch? (ch :: cs) = none)
    (hnumber : numberLiteral? operators (ch :: cs) = none) :
    lexeme policy .operation operators ⟨pos, ch :: cs⟩ = ofOperand operators pos
      (word policy (rulesOf .operation) (some operators) [] pos (ch :: cs)) := by
  rw [lexeme_cons, hs]
  simp only [if_neg hq, if_true, term, hmatch, hnumber]
  rfl

theorem endsNumber_overlooked (hletter : letter = 'u' ∨ letter = 'U') {operators : OperatorTable}
    (hlacks : operators.Lacks letter) (left rest : List Char)
    (h : endsNumber operators (left ++ '\\' :: letter :: rest) = false) :
    endsNumber operators (left ++ letter :: rest) = false := by
  have hcons (c : Char) (cs : List Char) : endsNumber operators (c :: cs) = false
      ↔ isClosing c = false ∧ operators.longestMatch? (c :: cs) = none
        ∧ startsComment (c :: cs) = false := by
    simp [endsNumber, afterComment?_isSome, and_assoc]
  have hcomment := startsComment_overlooked hletter left rest
  cases left with
  | nil =>
    obtain ⟨-, hmatch, hstarts⟩ := (hcons _ _).mp h
    have hclosing : isClosing letter = false := by rcases hletter with rfl | rfl <;> decide
    exact (hcons _ _).mpr
      ⟨hclosing, hlacks.longestMatch?_eq_none [] hmatch rest, hcomment.trans hstarts⟩
  | cons c left =>
    obtain ⟨hclosing, hmatch, hstarts⟩ := (hcons _ _).mp h
    exact (hcons _ _).mpr
      ⟨hclosing, hlacks.longestMatch?_eq_none (c :: left) hmatch rest, hcomment.trans hstarts⟩

theorem numberLiteral?_overlooked (hletter : letter = 'u' ∨ letter = 'U')
    {operators : OperatorTable} (hlacks : operators.Lacks letter) (front rest : List Char)
    (h : numberLiteral? operators (front ++ '\\' :: letter :: rest) = none) :
    numberLiteral? operators (front ++ letter :: rest) = none := by
  obtain ⟨left, digits?, hnumber⟩ := numberLiteral?_local front
  rw [hnumber operators '\\' _ (by decide)] at h
  rw [hnumber operators letter _ (by rcases hletter with rfl | rfl <;> decide)]
  cases hends : endsNumber operators (left ++ '\\' :: letter :: rest) with
  | true =>
    rw [hends, if_pos rfl] at h
    rw [h, ite_self]
  | false => rw [endsNumber_overlooked hletter hlacks left rest hends, if_neg Bool.false_ne_true]

theorem unsigned_overlooked (hletter : letter = 'u' ∨ letter = 'U') {mode : ReadMode} {ch : Char}
    (hs : sign? mode ch = none) (hq : ¬(ch == '"' || ch == '\'') = true)
    {cs front rest : List Char} (h : ch :: cs = front ++ '\\' :: letter :: rest) :
    ∃ d ds, front ++ letter :: rest = d :: ds ∧ sign? mode d = none
      ∧ ¬(d == '"' || d == '\'') = true := by
  cases front with
  | nil =>
    exact ⟨letter, rest, rfl, sign?_letter hletter mode,
      by rcases hletter with rfl | rfl <;> decide⟩
  | cons d front =>
    obtain rfl : ch = d := (List.cons.inj h).1
    exact ⟨ch, _, rfl, hs, hq⟩

/-- The token that begins here is the same without a backslash that stands in it, at a place. -/
def ShortenedAt (policy : UnicodePolicy) (mode : ReadMode) (operators : OperatorTable)
    (c b : Cursor) (letter : Char) : Prop :=
  ∃ front rest, c.rest = front ++ '\\' :: letter :: rest ∧ b.pos = c.pos + front.length
    ∧ (lexeme policy mode operators c).Shortened
      (lexeme policy mode operators ⟨c.pos, front ++ letter :: rest⟩)

section

variable {mode : ReadMode} {operators : OperatorTable} {pos : Nat} {ch : Char}
  (hs : sign? mode ch = none) (hi : invalidEscape? b.rest = some letter)
include hs hi

theorem quoted_shortened (hquote : (ch == '"' || ch == '\'') = true)
    (hc : Comes (quotedStep ch) ⟨pos + 1, cs⟩ b) :
    ShortenedAt policy mode operators ⟨pos, ch :: cs⟩ b letter := by
  obtain ⟨-, -, hletter, -⟩ := invalidEscape?_eq_some hi
  have hq : ch = '"' ∨ ch = '\'' := by simpa using hquote
  have hbackslash : ch ≠ '\\' := by rcases hq with rfl | rfl <;> decide
  obtain ⟨front, rest, hrest, hpos, hread⟩ :=
    (quoted_follows policy hbackslash pos).shortened (overlooks_quoted hletter hq) hc hi
  refine ⟨ch :: front, rest, congrArg (ch :: ·) hrest, ?_, ?_⟩
  · exact hpos.trans (by simp only [List.length_cons]; omega)
  · rw [List.cons_append, lexeme_cons, lexeme_cons, hs]
    simp only [if_pos hquote]
    exact ofQuoted_shortened (hread []) mode pos

/-- No operator may start at the letter of an operand without quotes, or reach it. -/
theorem operand_shortened (hquote : ¬(ch == '"' || ch == '\'') = true) (hop : mode = .operation)
    (hmatch : operators.longestMatch? (ch :: cs) = none)
    (hnumber : numberLiteral? operators (ch :: cs) = none) (hlacks : operators.Lacks letter)
    (hc : Comes (wordStep (rulesOf .operation) (some operators)) ⟨pos, ch :: cs⟩ b) :
    ShortenedAt policy mode operators ⟨pos, ch :: cs⟩ b letter := by
  subst hop
  obtain ⟨-, -, hletter, -⟩ := invalidEscape?_eq_some hi
  have hoverlooks : Overlooks (wordStep (rulesOf .operation) (some operators)) letter :=
    overlooks_word hletter _ fun t ht => Option.some.inj ht ▸ ⟨hlacks, _, hmatch⟩
  obtain ⟨front, rest, hrest, hpos, hread⟩ :=
    (word_follows policy (rulesOf .operation) (some operators)).shortened hoverlooks hc hi
  refine ⟨front, rest, hrest, hpos, ?_⟩
  rw [lexeme_operand pos hs hquote hmatch hnumber]
  simp only at hrest
  rw [hrest] at hmatch hnumber
  have hmatch' := hlacks.longestMatch?_eq_none front hmatch rest
  have hnumber' := numberLiteral?_overlooked hletter hlacks front rest hnumber
  have hshort := hread []
  obtain ⟨d, ds, hd, hsd, hqd⟩ := unsigned_overlooked hletter hs hquote hrest
  simp only [hd] at hmatch' hnumber' hshort ⊢
  rw [lexeme_operand pos hsd hqd hmatch' hnumber']
  exact ⟨congrArg (some ∘ String.ofList) hshort.text, hshort.rest, hshort.pos⟩

theorem word_shortened (hquote : ¬(ch == '"' || ch == '\'') = true) (hop : ¬mode = .operation)
    (hc : Comes (wordStep (rulesOf mode) none) ⟨pos, ch :: cs⟩ b) :
    ShortenedAt policy mode operators ⟨pos, ch :: cs⟩ b letter := by
  obtain ⟨-, -, hletter, -⟩ := invalidEscape?_eq_some hi
  have hfollows := word_follows policy (rulesOf mode) none
  obtain ⟨front, rest, hrest, hpos, hread⟩ :=
    hfollows.shortened (overlooks_word hletter (rulesOf mode) nofun) hc hi
  have hv : pos + 2 ≤ (word policy (rulesOf mode) none [] pos (ch :: cs)).after.pos := by
    have hbeyond := hfollows.beyond hc hi []
    rw [hpos] at hbeyond
    simp only at hbeyond
    omega
  refine ⟨front, rest, hrest, hpos, ?_⟩
  have hshort := hread []
  obtain ⟨d, ds, hd, hsd, hqd⟩ := unsigned_overlooked hletter hs hquote hrest
  simp only [hd] at hshort ⊢
  rw [lexeme_word operators pos hs hquote hop, lexeme_word operators pos hsd hqd hop]
  exact ofWord_shortened hshort mode rfl hv

end

theorem lexeme_shortened {mode : ReadMode} {operators : OperatorTable}
    (hm : mode = .operation →
      (lexeme policy mode operators c).token.kind = .quoted ∨ operators.Lacks letter)
    (h : LiteralComes mode operators c b letter) :
    ShortenedAt policy mode operators c b letter := by
  obtain ⟨step, start, hreader, hc, hi⟩ := h
  obtain ⟨pos, ch, cs, rfl, hs, hread⟩ := literalReader?_read hreader
  cases hread with
  | quoted hquote => exact quoted_shortened hs hi hquote hc
  | operand hquote hop hmatch hnumber =>
    refine operand_shortened hs hi hquote hop hmatch hnumber ((hm hop).resolve_left ?_) hc
    subst hop
    rw [lexeme_operand pos hs hquote hmatch hnumber, ofOperand]
    intro hkind
    simp only at hkind
    split at hkind <;> cases hkind
  | word hquote hop => exact word_shortened hs hi hquote hop hc

/-- Reading a token comes to an invalid escape, whose backslash stands at a position. -/
def ReadsInvalid (mode : ReadMode) (operators : OperatorTable) (c : Cursor) (letter : Char)
    (pos : Nat) : Prop :=
  ∃ b, LiteralComes mode operators (skipBlank c.pos c.rest).1 b letter ∧ b.pos = pos

theorem drop_eraseIdx {start : Nat} {front rest : List Char} {c : Char}
    (h : cs.drop start = front ++ c :: rest) :
    (cs.eraseIdx (start + front.length)).drop start = front ++ rest := by
  have hlt : start < cs.length := by
    refine Nat.lt_of_not_le fun hge => ?_
    rw [List.drop_eq_nil_of_le hge] at h
    simp at h
  have hlength : (cs.take start).length = start := List.length_take_of_le (Nat.le_of_lt hlt)
  have hcs : cs = cs.take start ++ (front ++ c :: rest) := h ▸ (List.take_append_drop start cs).symm
  rw [hcs, List.eraseIdx_append_of_length_le (by omega), hlength, Nat.add_sub_cancel_left,
    List.eraseIdx_append_of_length_le (Nat.le_refl _), Nat.sub_self, List.drop_left' hlength]
  rfl

/-- A token reads the same, up to the same place, from the text without the backslash. -/
theorem next_shortened {mode : ReadMode} {operators : OperatorTable} {start pos : Nat}
    (h : ReadsInvalid mode operators ((Cursor.start cs).advance start) letter pos)
    (hm : mode = .operation →
      (next policy mode operators ((Cursor.start cs).advance start)).token.kind = .quoted
        ∨ operators.Lacks letter) :
    (next policy mode operators ((Cursor.start cs).advance start)).Shortened
      (next policy mode operators ((Cursor.start (cs.eraseIdx pos)).advance start)) := by
  have hstart (cs : List Char) : (Cursor.start cs).advance start = ⟨start, cs.drop start⟩ := by
    rw [Cursor.advance, Cursor.start, Nat.zero_add]
  rw [hstart] at h hm ⊢
  rw [hstart]
  obtain ⟨b, hb, rfl⟩ := h
  have hletter := hb.letter_eq
  obtain ⟨front, rest, hrest, hpos, hshort⟩ := lexeme_shortened hm hb
  obtain ⟨blank, hblank, hplace⟩ := skipBlank_reaches start (cs.drop start)
  simp only at hblank hplace hpos
  rw [hrest, ← List.append_assoc] at hblank
  have herase : (cs.eraseIdx b.pos).drop start = blank ++ front ++ letter :: rest := by
    rw [hpos, hplace, Nat.add_assoc, ← List.length_append]
    exact drop_eraseIdx hblank
  have hskip := skipBlank_overlooked hletter rest start (blank ++ front) (hblank ▸ hrest)
  have hlexeme : (lexeme policy mode operators (skipBlank start (cs.drop start)).1).Shortened
      (lexeme policy mode operators (skipBlank start ((cs.eraseIdx b.pos).drop start)).1) := by
    rw [herase, hskip, ← hblank]
    exact hshort
  exact ⟨hlexeme.literal, hlexeme.rest, hlexeme.pos⟩

end Scan

end ConfigScript
