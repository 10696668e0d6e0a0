import ConfigScript.Proofs.Token.Lexeme
import ConfigScript.Proofs.Token.Apart

/-! # Texts that differ in the last character

The same text, closed as an object in one place and as a list in the other, is read token by token
alike, up to the closing bracket: what is taken before it is the same, and nothing is reported in
one place that is not in the other. Only the key of a property may run over the bracket of a
list. -/

namespace ConfigScript.Scan

open Cursor

variable {cs ds : List Char}

/-- The same line, the first closed by a brace and the second by a bracket. -/
inductive Twins : List Char → List Char → Prop
  | empty : Twins [] []
  | closers : Twins ['}'] [']']
  | cons {c : Char} {cs ds : List Char} (inLine : c ≠ '\n') (goesOn : cs ≠ [])
    (twins : Twins cs ds) :
    Twins (c :: cs) (c :: ds)

namespace Twins

theorem append_closers {e : List Char} (h : ∀ c ∈ e, c ≠ '\n') :
    Twins (e ++ ['}']) (e ++ [']']) := by
  induction e with
  | nil => exact .closers
  | cons c e ih =>
    exact .cons (h c List.mem_cons_self) (by simp) (ih fun d hd => h d (List.mem_cons_of_mem c hd))

theorem length_eq (h : Twins cs ds) : ds.length = cs.length := by
  induction h with
  | empty => rfl
  | closers => rfl
  | cons _ _ _ ih => rw [List.length_cons, List.length_cons, ih]

theorem nil_iff (h : Twins cs ds) : cs = [] ↔ ds = [] := by
  rw [← List.length_eq_zero_iff, ← List.length_eq_zero_iff, h.length_eq]

theorem drop (h : Twins cs ds) (n : Nat) : Twins (cs.drop n) (ds.drop n) := by
  induction h generalizing n with
  | empty => simpa using .empty
  | closers =>
    cases n with
    | zero => exact .closers
    | succ n => simpa using .empty
  | cons inLine goesOn twins ih =>
    cases n with
    | zero => exact .cons inLine goesOn twins
    | succ n => exact ih n

theorem head_ne (h : Twins cs ds) : cs.head? ≠ some '\n' ∧ ds.head? ≠ some '\n' := by
  cases h with
  | empty => simp
  | closers => simp
  | cons inLine => simpa using inLine

theorem not_mem (h : Twins cs ds) : '\n' ∉ cs ∧ '\n' ∉ ds := by
  induction h with
  | empty => simp
  | closers => simp
  | cons inLine _ _ ih => simpa [Ne.symm inLine] using ih

end Twins

/-! ## Blanks and comments -/

theorem dropWhile_line (h : '\n' ∉ cs) : cs.dropWhile (· != '\n') = [] := by
  induction cs with
  | nil => rfl
  | cons c cs ih =>
    simp only [List.mem_cons, not_or] at h
    rw [List.dropWhile_cons_of_pos (by simpa using Ne.symm h.1), ih h.2]

theorem afterBlock?_twins (h : Twins cs ds) :
    Option.Rel Twins (afterBlock? cs) (afterBlock? ds) := by
  induction h with
  | empty => exact .none
  | closers => exact .none
  | @cons c cs ds inLine goesOn twins ih =>
    by_cases hc : c = '*'
    · subst hc
      cases twins with
      | empty => exact absurd rfl goesOn
      | closers => exact ih
      | @cons d cs ds inLine' goesOn' twins' =>
        by_cases hd : d = '/'
        · subst hd
          exact .some twins'
        · rw [afterBlock?.eq_3 _ _ (fun _ _ h => hd (List.cons.inj h).1),
            afterBlock?.eq_3 _ _ (fun _ _ h => hd (List.cons.inj h).1)]
          exact ih
    · rw [afterBlock?.eq_3 _ _ (fun _ h => absurd h hc),
        afterBlock?.eq_3 _ _ (fun _ h => absurd h hc)]
      exact ih

theorem afterComment?_twins (h : Twins cs ds) :
    Option.Rel (fun a b => Twins a.1 b.1 ∧ b.2 = a.2) (afterComment? cs) (afterComment? ds) := by
  have hblock {cs ds : List Char} (h : Twins cs ds) :
      Option.Rel (fun a b => Twins a.1 b.1 ∧ b.2 = a.2) (afterComment? ('/' :: '*' :: cs))
        (afterComment? ('/' :: '*' :: ds)) := by
    have hrel := afterBlock?_twins h
    simp only [afterComment?]
    generalize afterBlock? cs = found at hrel ⊢
    generalize afterBlock? ds = found' at hrel ⊢
    cases hrel with
    | none => exact .some ⟨.empty, rfl⟩
    | some h => exact .some ⟨h, rfl⟩
  have hline {cs ds : List Char} (h : Twins cs ds) :
      Option.Rel (fun a b => Twins a.1 b.1 ∧ b.2 = a.2) (afterComment? ('/' :: '/' :: cs))
        (afterComment? ('/' :: '/' :: ds)) := by
    simp only [afterComment?, dropWhile_line h.not_mem.1, dropWhile_line h.not_mem.2]
    exact .some ⟨.empty, rfl⟩
  cases hs : startsComment cs with
  | false =>
    have hds : startsComment ds = false := by
      cases h with
      | empty => exact hs
      | closers => rfl
      | cons _ _ twins =>
        cases twins with
        | empty => exact hs
        | closers => simp [startsComment]
        | cons => exact hs
    rw [afterComment?_eq_none hs, afterComment?_eq_none hds]
    exact .none
  | true =>
    cases h with
    | empty => exact absurd hs (by decide)
    | closers => exact absurd hs (by decide)
    | cons _ goesOn twins =>
      cases twins with
      | empty => exact absurd rfl goesOn
      | closers => simp [startsComment] at hs
      | cons _ _ twins =>
        simp only [startsComment, Bool.and_eq_true, Bool.or_eq_true, beq_iff_eq] at hs
        obtain ⟨rfl, rfl | rfl⟩ := hs
        · exact hline twins
        · exact hblock twins

theorem commentReports_eq_nil {closed : Bool} {pos : Nat} (h : commentReports pos closed = [])
    (pos' : Nat) : commentReports pos' closed = [] := by
  cases closed with
  | true => rfl
  | false => exact absurd h (by simp [commentReports])

theorem Twins.not_join {c : Char} (h : Twins cs ds) :
    ¬(c == '\\' && ds.head? == some '\n') = true := by
  simpa using fun _ => h.head_ne.2

theorem afterComment?_some_twins (h : Twins cs ds) {after : List Char} {closed : Bool}
    (hk : afterComment? cs = some (after, closed)) :
    ∃ after', afterComment? ds = some (after', closed) ∧ Twins after after' := by
  have hrel := afterComment?_twins h
  rw [hk] at hrel
  generalize afterComment? ds = found at hrel ⊢
  cases hrel with
  | @some _ b hb =>
    obtain ⟨after', closed'⟩ := b
    obtain ⟨hafter, rfl⟩ := hb
    exact ⟨after', rfl, hafter⟩

theorem afterComment?_none_twins (h : Twins cs ds) (hk : afterComment? cs = none) :
    afterComment? ds = none := by
  have hrel := afterComment?_twins h
  rw [hk] at hrel
  generalize afterComment? ds = found at hrel ⊢
  cases hrel
  rfl

theorem skipBlank_twins (h : Twins cs ds) (pos pos' : Nat) :
    Twins (skipBlank pos cs).1.rest (skipBlank pos' ds).1.rest
      ∧ ((skipBlank pos cs).2 = [] → (skipBlank pos' ds).2 = []) := by
  fun_induction skipBlank pos cs generalizing ds pos' with
  | case1 pos =>
    cases h
    rw [skipBlank]
    exact ⟨.empty, fun _ => rfl⟩
  | case2 pos c rest hs ih =>
    cases h with
    | closers => exact absurd hs (by decide)
    | cons _ _ twins =>
      rw [skipBlank_spacing hs]
      exact ih twins (pos' + 1)
  | case3 pos c rest _ hj =>
    cases h with
    | closers => simp at hj
    | cons _ _ twins =>
      simp only [Bool.and_eq_true, beq_iff_eq] at hj
      exact absurd hj.2 twins.head_ne.1
  | case4 pos c rest hs hj after closed hk =>
    rename_i ih
    obtain ⟨after', hk', hafter⟩ := afterComment?_some_twins h hk
    cases h with
    | closers => simp [afterComment?] at hk
    | @cons _ _ ds _ _ twins =>
      obtain ⟨hrest, hreports⟩ := ih hafter (pos' + ((c :: ds).length - after'.length))
      rw [skipBlank_comment hk']
      refine ⟨hrest, fun hr => ?_⟩
      rw [List.append_eq_nil_iff] at hr ⊢
      exact ⟨commentReports_eq_nil hr.1 pos', hreports hr.2⟩
  | case5 pos c rest hs hj hk =>
    have hk' := afterComment?_none_twins h hk
    cases h with
    | closers =>
      rw [skipBlank_none (by decide) (by decide) hk']
      exact ⟨.closers, fun _ => rfl⟩
    | cons inLine goesOn twins =>
      rw [skipBlank_stop hs twins.not_join hk']
      exact ⟨.cons inLine goesOn twins, fun _ => rfl⟩

/-! ## Escapes -/

theorem hexValue?_twins (h : Twins cs ds) (n v : Nat) :
    Text.hexValue? n v ds = Text.hexValue? n v cs := by
  induction h generalizing n v with
  | empty => rfl
  | closers =>
    cases n with
    | zero => rfl
    | succ n => rfl
  | @cons c cs ds _ _ _ ih =>
    cases n with
    | zero => rfl
    | succ n =>
      simp only [Text.hexValue?]
      cases Text.hexDigit? c with
      | none => rfl
      | some d => exact ih n _

/-- The same escape, apart from where its reports stand, unless it takes the closing bracket. -/
structure Escape.Matches (cs : List Char) (d e : Escape) : Prop where
  used : e.used = d.used
  text : cs.drop d.used ≠ [] → e.text = d.text
  reports : d.reports = [] → e.reports = []

theorem unicodeEscape_twins (policy : UnicodePolicy) (letter : Char) (n : Nat) (h : Twins cs ds)
    (pos pos' : Nat) (text : List Char) : Escape.Matches text (unicodeEscape policy letter n pos cs)
      (unicodeEscape policy letter n pos' ds) := by
  unfold unicodeEscape hexChar?
  rw [hexValue?_twins h]
  split
  · exact ⟨rfl, fun _ => rfl, fun _ => rfl⟩
  · refine ⟨rfl, fun _ => rfl, fun hr => ?_⟩
    cases policy with
    | ignore => rfl
    | _ => exact absurd hr (by simp [escapeReports])

theorem escape_other {c : Char} (hu : c ≠ 'u') (hU : c ≠ 'U') :
    ∃ text, ∀ policy pos cs, escape policy pos (c :: cs) = ⟨text, 1, []⟩ := by
  by_cases hn : c = 'n'
  · exact ⟨['\n'], fun _ _ _ => by rw [hn]; rfl⟩
  · by_cases ht : c = 't'
    · exact ⟨['\t'], fun _ _ _ => by rw [ht]; rfl⟩
    · by_cases hr : c = 'r'
      · exact ⟨['\r'], fun _ _ _ => by rw [hr]; rfl⟩
      · refine ⟨[c], fun policy pos cs => ?_⟩
        rw [escape.eq_7]
        all_goals assumption

theorem escape_twins (policy : UnicodePolicy) (h : Twins cs ds) (pos pos' : Nat) :
    Escape.Matches cs (escape policy pos cs) (escape policy pos' ds) := by
  cases h with
  | empty => exact ⟨rfl, fun _ => rfl, fun _ => rfl⟩
  | closers => exact ⟨rfl, fun hne => absurd rfl hne, fun _ => rfl⟩
  | @cons c cs ds _ _ twins =>
    by_cases hu : c = 'u'
    · rw [hu]
      exact unicodeEscape_twins policy 'u' 4 twins pos pos' _
    · by_cases hU : c = 'U'
      · rw [hU]
        exact unicodeEscape_twins policy 'U' 8 twins pos pos' _
      · obtain ⟨text, htext⟩ := escape_other hu hU
        rw [htext, htext]
        exact ⟨rfl, fun _ => rfl, fun _ => rfl⟩

/-! ## Words and quoted texts -/

/-- The same word, unless it takes the closing bracket. -/
structure Word.Matches (v w : Word) : Prop where
  after : Twins v.after.rest w.after.rest
  text : v.after.rest ≠ [] → w.text = v.text
  escaped : w.escaped = v.escaped
  reports : v.reports = [] → w.reports = []

theorem Word.Matches.stop (h : Twins cs ds) (pos pos' : Nat) :
    Word.Matches ⟨[], false, ⟨pos, cs⟩, []⟩ ⟨[], false, ⟨pos', ds⟩, []⟩ :=
  ⟨h, fun _ => rfl, rfl, fun _ => rfl⟩

theorem drop_ne_nil_of_reaches {pos n : Nat} {d : Cursor} (h : Reaches ⟨pos, cs.drop n⟩ d)
    (hd : d.rest ≠ []) : cs.drop n ≠ [] := by
  intro hnil
  have hle := h.length_le
  simp only [hnil, List.length_nil, Nat.le_zero, List.length_eq_zero_iff] at hle
  exact hd hle

variable {policy : UnicodePolicy}

theorem Word.Matches.escape {v w : Word} (hvw : v.Matches w) (h : Twins cs ds) {pos pos' p : Nat}
    (hreach : Reaches ⟨p, cs.drop (Scan.escape policy pos cs).used⟩ v.after) (blanks : List Char) :
    Word.Matches
      ⟨blanks ++ (Scan.escape policy pos cs).text ++ v.text, true, v.after,
        (Scan.escape policy pos cs).reports ++ v.reports⟩
      ⟨blanks ++ (Scan.escape policy pos' ds).text ++ w.text, true, w.after,
        (Scan.escape policy pos' ds).reports ++ w.reports⟩ := by
  have he := escape_twins policy h pos pos'
  refine ⟨hvw.after, fun hne => ?_, rfl, fun hr => ?_⟩
  · simp only
    rw [he.text (drop_ne_nil_of_reaches hreach hne), hvw.text hne]
  · simp only [List.append_eq_nil_iff] at hr ⊢
    exact ⟨he.reports hr.1, hvw.reports hr.2⟩

/-- The same word up to the closing bracket, where both brackets end a word; a key runs over the
bracket of a list. -/
def Word.Agrees (r : WordRules) (v w : Word) : Prop :=
  v.Matches w ∨ r.stopAtBracket = false ∧ v.after.rest <:+ ['}']

section

variable {r : WordRules} {operators : Option OperatorTable} {blanks : List Char} {pos pos' : Nat}
  {c : Char}

theorem word_twins_closers :
    (word policy r operators blanks pos ['}']).Agrees r
      (word policy r operators blanks pos' [']']) := by
  rw [word_here (by decide) (by decide) rfl, if_pos (by simp [WordRules.stopsAt])]
  cases hb : r.stopAtBracket with
  | false => exact .inr ⟨hb, List.suffix_rfl⟩
  | true =>
    rw [word_here (by decide) (by decide) rfl, if_pos (by simp [WordRules.stopsAt, hb])]
    exact .inl (.stop .closers _ _)

theorem word_twins_spacing (hs : isSpacing c = true) (h : Twins (c :: cs) (c :: ds))
    (hrest : (word policy r operators (blanks ++ [c]) (pos + 1) cs).Agrees r
      (word policy r operators (blanks ++ [c]) (pos' + 1) ds)) :
    (word policy r operators blanks pos (c :: cs)).Agrees r
      (word policy r operators blanks pos' (c :: ds)) := by
  by_cases hb : r.stopAtBlank = true
  · rw [word_spacing_stop hs hb, word_spacing_stop hs hb]
    exact .inl (.stop h _ _)
  · rw [word_spacing hs hb, word_spacing hs hb]
    exact hrest

theorem word_twins_comment {after after' : List Char} {closed : Bool}
    (hk : afterComment? (c :: cs) = some (after, closed))
    (hk' : afterComment? (c :: ds) = some (after', closed)) (h : Twins (c :: cs) (c :: ds))
    (hrest : ∀ pos pos', (word policy r operators blanks pos after).Agrees r
      (word policy r operators blanks pos' after')) :
    (word policy r operators blanks pos (c :: cs)).Agrees r
      (word policy r operators blanks pos' (c :: ds)) := by
  by_cases hb : r.stopAtBlank = true
  · rw [word_comment_stop hk hb, word_comment_stop hk' hb]
    exact .inl (.stop h _ _)
  · rw [word_comment hk hb, word_comment hk' hb]
    refine (hrest _ (pos' + ((c :: ds).length - after'.length))).imp (fun hw => ?_) id
    refine ⟨hw.after, hw.text, hw.escaped, fun hr => ?_⟩
    rw [List.append_eq_nil_iff] at hr ⊢
    exact ⟨commentReports_eq_nil hr.1 pos', hw.reports hr.2⟩

/-- Where neither a blank nor a comment starts, both words stop, or both go on behind an escape or
behind the character. -/
theorem word_twins_here (ho : ∀ cs, startsOperator operators cs = false)
    (hs : ¬isSpacing c = true) (hk : afterComment? (c :: cs) = none) (inLine : c ≠ '\n')
    (goesOn : cs ≠ []) (twins : Twins cs ds)
    (hrest : ∀ n pos pos', (word policy r operators [] pos (cs.drop n)).Agrees r
      (word policy r operators [] pos' (ds.drop n))) :
    (word policy r operators blanks pos (c :: cs)).Agrees r
      (word policy r operators blanks pos' (c :: ds)) := by
  have h : Twins (c :: cs) (c :: ds) := .cons inLine goesOn twins
  have hj : ¬(c == '\\' && cs.head? == some '\n') = true := by
    simpa using fun _ => twins.head_ne.1
  rw [word_here hs hj hk, word_here hs twins.not_join (afterComment?_none_twins h hk), ho, ho]
  split
  · exact .inl (.stop h _ _)
  · split
    · have he := escape_twins policy twins pos pos'
      simp only [he.used]
      refine (hrest _ _ (pos' + 1 + (escape policy pos cs).used)).imp (fun hw => ?_) id
      exact hw.escape twins (word_reaches _ _ _ _ _ _) blanks
    · refine (hrest 0 (pos + 1) (pos' + 1)).imp (fun hw => ?_) id
      exact ⟨hw.after, fun hne => congrArg (blanks ++ c :: ·) (hw.text hne), hw.escaped, hw.reports⟩

theorem word_twins (policy : UnicodePolicy) (r : WordRules) {operators : Option OperatorTable}
    (ho : ∀ cs, startsOperator operators cs = false) (h : Twins cs ds) (blanks : List Char)
    (pos pos' : Nat) :
    (word policy r operators blanks pos cs).Agrees r (word policy r operators blanks pos' ds) := by
  -- A word goes on behind a comment or an escape, so the texts get shorter by more than one.
  induction hn : cs.length using Nat.strongRecOn generalizing cs ds blanks pos pos' with
  | _ n ih =>
    subst hn
    cases h with
    | empty =>
      rw [word_nil, word_nil]
      exact .inl (.stop .empty _ _)
    | closers => exact word_twins_closers
    | @cons c cs ds inLine goesOn twins =>
      have h : Twins (c :: cs) (c :: ds) := .cons inLine goesOn twins
      by_cases hs : isSpacing c = true
      · exact word_twins_spacing hs h (ih _ (Nat.lt_succ_self _) twins _ _ _ rfl)
      · cases hk : afterComment? (c :: cs) with
        | some found =>
          obtain ⟨after, closed⟩ := found
          obtain ⟨after', hk', hafter⟩ := afterComment?_some_twins h hk
          exact word_twins_comment hk hk' h fun _ _ =>
            ih _ (afterComment?_length_lt hk) hafter _ _ _ rfl
        | none =>
          refine word_twins_here ho hs hk inLine goesOn twins fun n _ _ => ?_
          refine ih _ (Nat.lt_succ_of_le ?_) (twins.drop n) _ _ _ rfl
          exact (List.drop_sublist n cs).length_le

end

theorem quoted_twins {quote : Char} (hq : quote ≠ '}' ∧ quote ≠ ']') (first first' : Nat)
    (h : Twins cs ds) (pos pos' : Nat) :
    (quoted policy quote first pos cs).Matches (quoted policy quote first' pos' ds) := by
  fun_induction quoted policy quote first pos cs generalizing ds pos' with
  | case1 pos =>
    cases h
    rw [quoted]
    exact ⟨.empty, fun _ => rfl, rfl, fun hr => absurd hr (List.cons_ne_nil _ _)⟩
  | case2 pos c rest hc =>
    cases h with
    | closers => simp [Ne.symm hq.1] at hc
    | cons _ _ twins =>
      rw [quoted, if_pos hc]
      exact ⟨twins, fun _ => rfl, rfl, fun _ => rfl⟩
  | case3 pos c rest _ _ hj =>
    cases h with
    | closers => simp at hj
    | cons _ _ twins => exact absurd (beq_iff_eq.mp hj) twins.head_ne.1
  | case4 pos c rest hc hb hj e =>
    rename_i ih
    cases h with
    | closers => simp at hb
    | @cons _ _ ds _ _ twins =>
      have he := escape_twins policy twins pos pos'
      rw [quoted, if_neg hc, if_pos hb, if_neg (by simpa using twins.head_ne.2)]
      simp only [he.used]
      have hw := ih (twins.drop e.used) (pos' + 1 + e.used)
      exact hw.escape twins (quoted_reaches _ _ _ _ _) []
  | case5 pos c rest _ _ hn =>
    cases h with
    | closers => simp at hn
    | cons inLine => simp [inLine] at hn
  | case6 pos c rest hc hb hn =>
    rename_i ih
    cases h with
    | closers =>
      have hbracket : (']' == quote) = false := by simpa using Ne.symm hq.2
      have hover := ih .empty (pos' + 1)
      rw [quoted, hbracket, if_neg Bool.false_ne_true, if_neg (by decide), if_neg (by decide)]
      have hnil : (quoted policy quote first (pos + 1) []).after.rest = [] := by rw [quoted]
      exact ⟨hover.after, fun hne => absurd hnil hne, hover.escaped, hover.reports⟩
    | @cons _ _ ds _ _ twins =>
      rw [quoted, if_neg hc, if_neg hb, if_neg hn]
      have hw := ih twins (pos' + 1)
      exact ⟨hw.after, fun hne => congrArg (c :: ·) (hw.text hne), hw.escaped, hw.reports⟩

/-! ## Numbers -/

/-- What is taken at the front of a text does not reach the closing bracket. -/
def TakesAlike (take : List Char → List Char × List Char) : Prop :=
  ∀ cs ds, Twins cs ds → (take ds).1 = (take cs).1 ∧ Twins (take cs).2 (take ds).2

theorem takeDigits_twins : TakesAlike Number.takeDigits := by
  intro cs ds h
  induction h with
  | empty => exact ⟨rfl, .empty⟩
  | closers => exact ⟨rfl, .closers⟩
  | @cons c cs ds inLine goesOn twins ih =>
    simp only [Number.takeDigits] at ih ⊢
    cases hc : c.isDigit with
    | true => simpa [hc] using ih
    | false => simpa [hc] using .cons inLine goesOn twins

theorem takeFraction_twins : TakesAlike takeFraction := by
  intro cs ds h
  cases h with
  | empty => exact ⟨rfl, .empty⟩
  | closers => exact ⟨rfl, .closers⟩
  | @cons c cs ds inLine goesOn twins =>
    by_cases hc : c = '.'
    · subst hc
      have hd := takeDigits_twins cs ds twins
      simp only [takeFraction]
      generalize Number.takeDigits cs = taken at hd ⊢
      generalize Number.takeDigits ds = taken' at hd ⊢
      obtain ⟨digits, rest⟩ := taken
      obtain ⟨digits', rest'⟩ := taken'
      obtain ⟨rfl, hrest⟩ := hd
      cases digits' with
      | nil => exact ⟨rfl, .cons inLine goesOn twins⟩
      | cons d digits' => exact ⟨rfl, hrest⟩
    · have hnone (cs : List Char) : takeFraction (c :: cs) = ([], c :: cs) :=
        takeFraction.eq_2 _ fun _ h => hc (List.cons.inj h).1
      rw [hnone, hnone]
      exact ⟨rfl, .cons inLine goesOn twins⟩

theorem takeSignText_twins : TakesAlike takeSignText := by
  intro cs ds h
  cases h with
  | empty => exact ⟨rfl, .empty⟩
  | closers => exact ⟨rfl, .closers⟩
  | @cons c cs ds inLine goesOn twins =>
    by_cases hp : c = '+'
    · rw [hp]
      exact ⟨rfl, twins⟩
    · by_cases hm : c = '-'
      · rw [hm]
        exact ⟨rfl, twins⟩
      · have hnone (cs : List Char) : takeSignText (c :: cs) = ([], c :: cs) :=
          takeSignText.eq_3 _ (fun _ h => hp (List.cons.inj h).1) fun _ h => hm (List.cons.inj h).1
        rw [hnone, hnone]
        exact ⟨rfl, .cons inLine goesOn twins⟩

theorem takeExponent_twins : TakesAlike takeExponent := by
  intro cs ds h
  cases h with
  | empty => exact ⟨rfl, .empty⟩
  | closers => exact ⟨rfl, .closers⟩
  | @cons c cs ds inLine goesOn twins =>
    simp only [takeExponent]
    split
    · obtain ⟨hsign, hrest⟩ := takeSignText_twins cs ds twins
      have hd := takeDigits_twins _ _ hrest
      rw [hsign]
      generalize Number.takeDigits (takeSignText cs).2 = taken at hd ⊢
      generalize Number.takeDigits (takeSignText ds).2 = taken' at hd ⊢
      obtain ⟨digits, rest⟩ := taken
      obtain ⟨digits', rest'⟩ := taken'
      obtain ⟨rfl, hrest⟩ := hd
      cases digits' with
      | nil => exact ⟨rfl, .cons inLine goesOn twins⟩
      | cons d digits' => exact ⟨rfl, hrest⟩
    · exact ⟨rfl, .cons inLine goesOn twins⟩

theorem endsNumber_twins (h : Twins cs ds) : endsNumber {} ds = endsNumber {} cs := by
  have hcomment := afterComment?_twins h
  cases h with
  | empty => rfl
  | closers => rfl
  | @cons c cs ds _ _ _ =>
    simp only [endsNumber, longestMatch?_empty]
    generalize afterComment? (c :: cs) = found at hcomment ⊢
    generalize afterComment? (c :: ds) = found' at hcomment ⊢
    cases hcomment with
    | none => rfl
    | some => rfl

theorem numberLiteral?_twins (h : Twins cs ds) :
    numberLiteral? {} ds = numberLiteral? {} cs := by
  obtain ⟨hwhole, hrest⟩ := takeDigits_twins cs ds h
  obtain ⟨hfraction, hrest'⟩ := takeFraction_twins _ _ hrest
  obtain ⟨hexponent, hlast⟩ := takeExponent_twins _ _ hrest'
  simp only [numberLiteral?, hwhole, hfraction, hexponent, endsNumber_twins hlast]

end ConfigScript.Scan
