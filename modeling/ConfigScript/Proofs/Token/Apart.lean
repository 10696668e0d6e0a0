import ConfigScript.Proofs.Token.Spelling

/-! # Tokens apart

The first token of an operation takes no more than what stands before a blank or a closing
parenthesis, and what follows there does not change it, as long as no operator is spelled with
either. Where only structure is expected, an unexpected token stands there. -/

namespace ConfigScript

/-- The same operator is found in front of both rests, whatever stands before them. -/
def OperatorTable.Alike (t : OperatorTable) (rest rest' : List Char) : Prop :=
  ∀ cs, t.longestMatch? (cs ++ rest) = t.longestMatch? (cs ++ rest')

theorem Operator.Valid.not_blank {o : Operator} (h : o.Valid) : ' ' ∉ o.name.toList := by
  obtain ⟨priority, hc⟩ := h
  intro hm
  have hblank : o.name.toList.any Text.isBlank = true :=
    List.any_eq_true.mpr ⟨' ', hm, by decide⟩
  unfold Operator.create at hc
  split at hc
  · cases hc
  · cases hc

theorem prefix_append_cons_iff {α : Type} {xs ys zs : List α} {a : α} (h : a ∉ xs) :
    xs <+: ys ++ a :: zs ↔ xs <+: ys := by
  refine ⟨fun hp => ?_, fun hp => hp.trans (List.prefix_append _ _)⟩
  rcases List.prefix_or_prefix_of_prefix hp (List.prefix_append ys (a :: zs)) with hxy | ⟨us, rfl⟩
  · exact hxy
  · have hus : us <+: a :: zs := (List.prefix_append_right_inj ys).mp hp
    cases us with
    | nil => simp
    | cons b us =>
      obtain ⟨rfl, -⟩ := List.cons_prefix_cons.mp hus
      simp at h

theorem OperatorTable.Valid.alike_blank {t : OperatorTable} (h : t.Valid) (xs ys : List Char) :
    t.Alike (' ' :: xs) (' ' :: ys) := by
  intro cs
  unfold OperatorTable.longestMatch?
  have hfilter :
      (t.operators.filter fun o => !o.keyword && o.name.toList.isPrefixOf (cs ++ ' ' :: xs))
        = t.operators.filter fun o => !o.keyword && o.name.toList.isPrefixOf (cs ++ ' ' :: ys) := by
    refine List.filter_congr fun o ho => ?_
    have hblank := (h o ho).not_blank
    have hiff : o.name.toList <+: cs ++ ' ' :: xs ↔ o.name.toList <+: cs ++ ' ' :: ys := by
      rw [prefix_append_cons_iff hblank, prefix_append_cons_iff hblank]
    rw [Bool.eq_iff_iff]
    simp [hiff]
  rw [hfilter]

namespace Scan

/-- The characters that stand behind the terms of an operation here. -/
def enders : List Char := [' ', ')']

theorem mem_enders {d : Char} : d ∈ enders ↔ d = ' ' ∨ d = ')' := by simp [enders]

variable {operators : OperatorTable} {w xs ys : List Char} {c d : Char}

/-! ## Comments -/

def startsComment : List Char → Bool
  | b :: c :: _ => b == '/' && (c == '/' || c == '*')
  | _ => false

theorem afterComment?_isSome (cs : List Char) : (afterComment? cs).isSome = startsComment cs := by
  unfold afterComment?
  split
  · rfl
  · split <;> rfl
  · rename_i hline hblock
    cases cs with
    | nil => rfl
    | cons b cs =>
      cases cs with
      | nil => rfl
      | cons c cs =>
        rw [Option.isSome_none, eq_comm, startsComment, ← Bool.not_eq_true]
        simp only [Bool.and_eq_true, Bool.or_eq_true, beq_iff_eq]
        rintro ⟨rfl, rfl | rfl⟩
        · exact hline cs rfl
        · exact hblock cs rfl

theorem afterComment?_eq_none {cs : List Char} (h : startsComment cs = false) :
    afterComment? cs = none := by
  rw [← afterComment?_isSome, Option.isSome_eq_false_iff, Option.isNone_iff_eq_none] at h
  exact h

theorem startsComment_of_ne (hc : c ≠ '/') (cs : List Char) : startsComment (c :: cs) = false := by
  cases cs with
  | nil => rfl
  | cons d cs => simp [startsComment, hc]

theorem startsComment_alike (hd : d ∈ enders) (w : List Char) (xs ys : List Char) :
    startsComment (w ++ d :: xs) = startsComment (w ++ d :: ys) := by
  cases w with
  | nil =>
    have hslash : d ≠ '/' := by rcases mem_enders.mp hd with rfl | rfl <;> decide
    rw [List.nil_append, List.nil_append, startsComment_of_ne hslash, startsComment_of_ne hslash]
  | cons b w =>
    cases w with
    | nil => rcases mem_enders.mp hd with rfl | rfl <;> simp [startsComment]
    | cons c w => rfl

/-! ## Numbers -/

/-- Whether a character may stand in a number. -/
def inNumber (d : Char) : Bool := d.isDigit || ['.', 'e', 'E', '+', '-'].contains d

theorem inNumber_ender (hd : d ∈ enders) : inNumber d = false := by
  rcases mem_enders.mp hd with rfl | rfl <;> decide

theorem ne_of_inNumber {e : Char} (hd : inNumber d = false)
    (he : ['.', 'e', 'E', '+', '-'].contains e = true) : d ≠ e := by
  rintro rfl
  rw [inNumber, he, Bool.or_true] at hd
  exact absurd hd.symm Bool.false_ne_true

/-- What is taken at the front of a text is the same whatever stands there from a character on that
cannot stand in a number. -/
def Local (take : List Char → List Char × List Char) : Prop :=
  ∀ w, ∃ us vs, ∀ d ys, inNumber d = false → take (w ++ d :: ys) = (us, vs ++ d :: ys)

theorem takeDigits_local : Local Number.takeDigits := by
  intro w
  refine ⟨w.takeWhile Char.isDigit, w.dropWhile Char.isDigit, fun d ys hd => ?_⟩
  have hdigit : d.isDigit = false := (Bool.or_eq_false_iff.mp hd).1
  induction w with
  | nil => simp [Number.takeDigits, hdigit]
  | cons c w ih =>
    simp only [Number.takeDigits, Prod.mk.injEq] at ih
    cases hc : c.isDigit <;> simp [Number.takeDigits, hc, ih]

theorem takeFraction_of_ne (hd : d ≠ '.') (ys : List Char) :
    takeFraction (d :: ys) = ([], d :: ys) := by
  unfold takeFraction
  split
  · rename_i he
    exact absurd (List.cons.inj he).1 hd
  · rfl

theorem takeFraction_local : Local takeFraction := by
  intro w
  cases w with
  | nil => exact ⟨[], [], fun d ys hd => takeFraction_of_ne (ne_of_inNumber hd (by decide)) ys⟩
  | cons c w =>
    by_cases hc : c = '.'
    · subst hc
      obtain ⟨us, vs, h⟩ := takeDigits_local w
      cases us with
      | nil => exact ⟨[], '.' :: w, fun d ys hd => by simp [takeFraction, h d ys hd]⟩
      | cons u us => exact ⟨'.' :: u :: us, vs, fun d ys hd => by simp [takeFraction, h d ys hd]⟩
    · exact ⟨[], c :: w, fun d ys _ => takeFraction_of_ne hc (w ++ d :: ys)⟩

theorem takeSignText_of_ne (hp : d ≠ '+') (hm : d ≠ '-') (ys : List Char) :
    takeSignText (d :: ys) = ([], d :: ys) := by
  unfold takeSignText
  split
  · rename_i he
    exact absurd (List.cons.inj he).1 hp
  · rename_i he
    exact absurd (List.cons.inj he).1 hm
  · rfl

theorem takeSignText_local : Local takeSignText := by
  intro w
  cases w with
  | nil => exact ⟨[], [], fun d ys hd => takeSignText_of_ne (ne_of_inNumber hd (by decide))
      (ne_of_inNumber hd (by decide)) ys⟩
  | cons c w =>
    by_cases hp : c = '+'
    · exact ⟨['+'], w, fun d ys _ => by rw [hp]; rfl⟩
    · by_cases hm : c = '-'
      · exact ⟨['-'], w, fun d ys _ => by rw [hm]; rfl⟩
      · exact ⟨[], c :: w, fun d ys _ => takeSignText_of_ne hp hm (w ++ d :: ys)⟩

theorem takeExponent_local : Local takeExponent := by
  intro w
  cases w with
  | nil =>
    refine ⟨[], [], fun d ys hd => ?_⟩
    have he : d ≠ 'e' := ne_of_inNumber hd (by decide)
    have hE : d ≠ 'E' := ne_of_inNumber hd (by decide)
    simp [takeExponent, he, hE]
  | cons e w =>
    by_cases he : (e == 'e' || e == 'E') = true
    · obtain ⟨sign, rest, hsign⟩ := takeSignText_local w
      obtain ⟨us, vs, h⟩ := takeDigits_local rest
      cases us with
      | nil =>
        exact ⟨[], e :: w, fun d ys hd => by simp [takeExponent, he, hsign d ys hd, h d ys hd]⟩
      | cons u us =>
        exact ⟨e :: sign ++ u :: us, vs,
          fun d ys hd => by simp [takeExponent, he, hsign d ys hd, h d ys hd]⟩
    · exact ⟨[], e :: w, fun d ys _ => by simp [takeExponent, he]⟩

/-- Whether a number stands in front of a character that cannot stand in it depends only on whether
it may end where it does. -/
theorem numberLiteral?_local (w : List Char) : ∃ left digits?, ∀ (operators : OperatorTable) d ys,
    inNumber d = false → numberLiteral? operators (w ++ d :: ys)
      = if endsNumber operators (left ++ d :: ys) then digits? else none := by
  obtain ⟨whole, rest, hwhole⟩ := takeDigits_local w
  obtain ⟨fraction, rest', hfraction⟩ := takeFraction_local rest
  obtain ⟨exponent, left, hexponent⟩ := takeExponent_local rest'
  refine ⟨left, if whole.isEmpty then none else some (whole ++ fraction ++ exponent),
    fun operators d ys hd => ?_⟩
  simp only [numberLiteral?, hwhole d ys hd, hfraction d ys hd, hexponent d ys hd]
  cases whole.isEmpty with
  | true => simp
  | false => cases endsNumber operators (left ++ d :: ys) <;> rfl

theorem endsNumber_alike (hd : d ∈ enders) (halike : operators.Alike (d :: xs) (d :: ys))
    (w : List Char) :
    endsNumber operators (w ++ d :: xs) = endsNumber operators (w ++ d :: ys) := by
  cases w with
  | nil =>
    rcases mem_enders.mp hd with rfl | rfl <;> simp [endsNumber, isClosing, isSpacing]
  | cons c w =>
    have hm := halike (c :: w)
    have hc := startsComment_alike hd (c :: w) xs ys
    simp only [List.cons_append] at hm hc ⊢
    simp only [endsNumber, afterComment?_isSome, hm, hc]

theorem numberLiteral?_alike (hd : d ∈ enders) (halike : operators.Alike (d :: xs) (d :: ys))
    (w : List Char) :
    numberLiteral? operators (w ++ d :: xs) = numberLiteral? operators (w ++ d :: ys) := by
  obtain ⟨left, digits?, hnumber⟩ := numberLiteral?_local w
  rw [hnumber operators d xs (inNumber_ender hd), hnumber operators d ys (inNumber_ender hd),
    endsNumber_alike hd halike left]

/-! ## Words -/

theorem word_cons {r : WordRules} (hr : r.stopAtBlank = true) (hc : c ≠ '\\')
    (policy : UnicodePolicy) (operators : Option OperatorTable) (pos : Nat) (cs : List Char) :
    word policy r operators [] pos (c :: cs)
      = if isSpacing c || startsComment (c :: cs) || r.stopsAt c
          || startsOperator operators (c :: cs)
        then ⟨[], false, ⟨pos, c :: cs⟩, []⟩
        else { word policy r operators [] (pos + 1) cs with
          text := c :: (word policy r operators [] (pos + 1) cs).text } := by
  rw [← afterComment?_isSome]
  by_cases hs : isSpacing c = true
  · simp [word_spacing_stop hs hr, hs]
  · cases hk : afterComment? (c :: cs) with
    | some found => simp [word_comment_stop hk hr]
    | none =>
      rw [word_here hs (by simp [hc]) hk]
      simp [hs, hc]

theorem word_ender {r : WordRules} (hr : r.stopAtBlank = true ∧ r.stopAtBracket = true)
    (hd : d ∈ enders) (policy : UnicodePolicy) (operators : Option OperatorTable) (pos : Nat)
    (ys : List Char) :
    word policy r operators [] pos (d :: ys) = ⟨[], false, ⟨pos, d :: ys⟩, []⟩ := by
  rcases mem_enders.mp hd with rfl | rfl
  · rw [word_cons hr.1 (by decide)]
    simp [isSpacing]
  · rw [word_cons hr.1 (by decide)]
    simp [WordRules.stopsAt, hr.2]

/-- What a word takes does not depend on what stands beyond its end. -/
theorem word_apart {r : WordRules} (hr : r.stopAtBlank = true ∧ r.stopAtBracket = true)
    (operators : Option OperatorTable) (hd : d ∈ enders) (hw : '\\' ∉ w) (xs : List Char) :
    ∃ us vs, w = us ++ vs ∧ ∀ policy pos ys,
      (∀ cs, startsOperator operators (cs ++ d :: ys) = startsOperator operators (cs ++ d :: xs)) →
      word policy r operators [] pos (w ++ d :: ys)
        = ⟨us, false, ⟨pos + us.length, vs ++ d :: ys⟩, []⟩ := by
  induction w with
  | nil => exact ⟨[], [], rfl, fun policy pos ys _ => word_ender hr hd policy operators pos ys⟩
  | cons c w ih =>
    simp only [List.mem_cons, not_or] at hw
    obtain ⟨us, vs, rfl, hword⟩ := ih hw.2
    have hc : c ≠ '\\' := Ne.symm hw.1
    cases hstop : isSpacing c || startsComment (c :: (us ++ vs ++ d :: xs)) || r.stopsAt c
        || startsOperator operators (c :: (us ++ vs ++ d :: xs)) with
    | true =>
      refine ⟨[], c :: (us ++ vs), rfl, fun policy pos ys hys => ?_⟩
      have hcomment := startsComment_alike hd (c :: (us ++ vs)) ys xs
      have hoperator := hys (c :: (us ++ vs))
      simp only [List.cons_append] at hcomment hoperator ⊢
      rw [word_cons hr.1 hc, hcomment, hoperator, if_pos hstop]
      rfl
    | false =>
      refine ⟨c :: us, vs, rfl, fun policy pos ys hys => ?_⟩
      have hcomment := startsComment_alike hd (c :: (us ++ vs)) ys xs
      have hoperator := hys (c :: (us ++ vs))
      simp only [List.cons_append] at hcomment hoperator ⊢
      rw [word_cons hr.1 hc, hcomment, hoperator, if_neg (Bool.eq_false_iff.mp hstop),
        hword policy (pos + 1) ys hys]
      simp [Nat.add_comm, Nat.add_left_comm]

theorem mem_of_word {policy : UnicodePolicy} {r : WordRules} {operators : Option OperatorTable}
    {blanks : List Char} {pos : Nat} {cs : List Char} (hb : '\\' ∉ cs)
    (hc : c ∈ (word policy r operators blanks pos cs).text) : c ∈ blanks ∨ c ∈ cs := by
  fun_induction word policy r operators blanks pos cs with
  | case1 => simp at hc
  | case2 => simp at hc
  | case3 blanks pos d rest _ _ ih =>
    simp only [List.mem_cons, not_or] at hb
    have hmem := ih hb.2 hc
    rwa [List.mem_append, List.mem_singleton, or_assoc, ← List.mem_cons] at hmem
  | case4 blanks pos d rest _ hj ih =>
    simp only [Bool.and_eq_true, beq_iff_eq] at hj
    simp [hj.1] at hb
  | case5 => simp at hc
  | case6 blanks pos d rest _ _ after closed hk _ w ih =>
    have hs := afterComment?_suffix hk
    exact (ih (fun h => hb (hs.subset h)) hc).imp_right (hs.subset ·)
  | case7 => simp at hc
  | case8 blanks pos d rest _ _ _ _ hd e w ih =>
    simp only [beq_iff_eq] at hd
    simp [hd] at hb
  | case9 blanks pos d rest _ _ _ _ _ w ih =>
    simp only [List.mem_cons, not_or] at hb
    simp only [List.mem_append, List.mem_cons] at hc ⊢
    rcases hc with h | rfl | h
    · exact .inl h
    · exact .inr (.inl rfl)
    · exact .inr (.inr ((ih hb.2 h).resolve_left (by simp)))

/-! ## Terms -/

theorem ofLiteral_inj {kind kind' : TokenKind} {p q : Nat} {cs cs' : List Char}
    (h : Token.ofLiteral kind p cs = .ofLiteral kind' q cs') : kind = kind' ∧ p = q ∧ cs = cs' := by
  simp only [Token.ofLiteral, Token.mk.injEq, Option.some.injEq] at h
  exact ⟨h.1, h.2.1, String.ofList_injective h.2.2⟩

theorem term_apart (hd : d ∈ enders) (hw : '\\' ∉ w) (halike : operators.Alike (d :: xs) (d :: ys))
    {kind : TokenKind} {first : UnicodePolicy} {q : Nat}
    (h : (term first operators ⟨q, w ++ d :: xs⟩).token = .ofLiteral kind q w)
    (policy : UnicodePolicy) (pos : Nat) :
    (term policy operators ⟨pos, w ++ d :: ys⟩).Is kind (some (String.ofList w)) (d :: ys) := by
  unfold term at h ⊢
  simp only [halike w, numberLiteral?_alike hd halike w] at h ⊢
  cases hm : operators.longestMatch? (w ++ d :: ys) with
  | some n =>
    simp only [hm] at h ⊢
    obtain ⟨rfl, -, htake⟩ := ofLiteral_inj h
    have hle := OperatorTable.longestMatch?_le ((halike w).trans hm)
    have hn : n = w.length := by
      have hlen := congrArg List.length htake
      rw [List.length_take] at hlen
      omega
    refine ⟨⟨pos, ?_⟩, ?_, rfl⟩
    · rw [hn, List.take_left]
      rfl
    · rw [hn]
      exact List.drop_left
  | none =>
    simp only [hm] at h ⊢
    cases hnum : numberLiteral? operators (w ++ d :: ys) with
    | some digits =>
      -- Where a number ends depends on one character behind it, which is the same.
      simp only [hnum] at h ⊢
      obtain ⟨rfl, -, rfl⟩ := ofLiteral_inj h
      exact ⟨⟨pos, rfl⟩, List.drop_left, rfl⟩
    | none =>
      simp only [hnum] at h ⊢
      obtain ⟨us, vs, rfl, hword⟩ := word_apart (r := rulesOf .operation) (by decide)
        (some operators) hd hw xs
      have hxs := hword first q xs fun _ => rfl
      have hys := hword policy pos ys fun cs => congrArg Option.isSome (halike cs).symm
      simp only [hxs] at h
      simp only [hys]
      obtain ⟨hkind, -, htext⟩ := ofLiteral_inj h
      have hvs : vs = [] := by simpa using htext
      subst hvs
      rw [List.append_nil]
      exact ⟨⟨pos, by rw [hkind]; rfl⟩, rfl, rfl⟩

theorem mem_of_term {policy : UnicodePolicy} {pos q : Nat} {kind : TokenKind} {cs : List Char}
    (hb : '\\' ∉ cs) (h : (term policy operators ⟨pos, cs⟩).token = .ofLiteral kind q w)
    (hc : c ∈ w) : c ∈ cs := by
  unfold term at h
  simp only at h
  split at h
  · obtain ⟨-, -, rfl⟩ := ofLiteral_inj h
    exact List.mem_of_mem_take hc
  · split at h
    · rename_i digits hdigits
      obtain ⟨-, -, rfl⟩ := ofLiteral_inj h
      exact (numberLiteral?_stands hdigits).1.subset hc
    · obtain ⟨-, -, rfl⟩ := ofLiteral_inj h
      exact (mem_of_word hb hc).resolve_left (by simp)

/-! ## Tokens -/

theorem skipBlank_of_start {policy : UnicodePolicy} {mode : ReadMode} {pos : Nat} {cs : List Char}
    (h : (next policy mode operators ⟨pos, cs⟩).token.start = pos) :
    (skipBlank pos cs).1 = ⟨pos, cs⟩ := by
  have hpos : (skipBlank pos cs).1.pos = pos := (lexeme_start policy mode operators _).symm.trans h
  obtain ⟨used, hrest, hused⟩ := skipBlank_reaches pos cs
  simp only at hrest hused
  have hnone : used = [] := by
    rw [← List.length_eq_zero_iff]
    omega
  rw [hnone, List.nil_append] at hrest
  exact congr (congrArg Cursor.mk hpos) hrest.symm

/-- How a term starts: with no blank, comment, joined line, sign or quoted text. -/
structure StartsTerm (c : Char) (cs : List Char) : Prop where
  spacing : isSpacing c = false
  backslash : c ≠ '\\'
  comment : startsComment (c :: cs) = false
  sign : sign? .operation c = none
  quote : (c == '"' || c == '\'') = false

theorem StartsTerm.next_eq (h : StartsTerm c xs) (policy : UnicodePolicy) (mode : ReadMode)
    (operators : OperatorTable) (pos : Nat) :
    next policy mode operators ⟨pos, c :: xs⟩ = lexeme policy mode operators ⟨pos, c :: xs⟩ := by
  simp [next, skipBlank_none h.spacing h.backslash (afterComment?_eq_none h.comment)]

theorem startsTerm_of_next {policy : UnicodePolicy} {kind : TokenKind} {pos : Nat}
    {literal : Option String} (hc : c ≠ '\\') (hk : kind ≠ .quoted) (hl : literal.isSome)
    (h : (next policy .operation operators ⟨pos, c :: xs⟩).token = ⟨kind, pos, literal⟩) :
    StartsTerm c xs := by
  have hskip : (skipBlank pos (c :: xs)).1 = ⟨pos, c :: xs⟩ := skipBlank_of_start (by rw [h])
  obtain ⟨hspacing, hcomment⟩ := skipBlank_stops pos (c :: xs) (congrArg Cursor.rest hskip)
  have htoken :
      (lexeme policy .operation operators ⟨pos, c :: xs⟩).token = ⟨kind, pos, literal⟩ := by
    rw [← hskip]
    exact h
  unfold lexeme at htoken
  simp only at htoken
  refine ⟨hspacing, hc, ?_, ?_, ?_⟩
  · rw [← afterComment?_isSome, hcomment]
    rfl
  · cases hs : sign? .operation c with
    | none => rfl
    | some sign =>
      simp only [hs, Token.sign, Token.mk.injEq] at htoken
      simp [← htoken.2.2] at hl
  · rw [← Bool.not_eq_true]
    intro hq
    cases hs : sign? .operation c with
    | some sign =>
      simp only [hs, Token.sign, Token.mk.injEq] at htoken
      simp [← htoken.2.2] at hl
    | none =>
      simp only [hs, hq, if_true, reduceCtorEq, if_false, Token.ofLiteral, Token.mk.injEq] at htoken
      exact hk htoken.1.symm

theorem StartsTerm.lexeme_eq (h : StartsTerm c xs) (policy : UnicodePolicy)
    (operators : OperatorTable) (pos : Nat) :
    next policy .operation operators ⟨pos, c :: xs⟩ = term policy operators ⟨pos, c :: xs⟩ := by
  rw [h.next_eq]
  simp [lexeme, h.sign, h.quote]

theorem mem_of_next {policy : UnicodePolicy} {kind : TokenKind} {pos : Nat} {cs : List Char}
    (hb : '\\' ∉ cs) (hk : kind ≠ .quoted)
    (h : (next policy .operation operators ⟨pos, cs⟩).token = .ofLiteral kind pos w) (hc : c ∈ w) :
    c ∈ cs := by
  cases cs with
  | nil => simp [next, skipBlank, lexeme, Token.sign, Token.ofLiteral] at h
  | cons d cs =>
    have hstarts := startsTerm_of_next (fun hd => hb (by simp [hd])) hk rfl h
    rw [hstarts.lexeme_eq] at h
    exact mem_of_term hb h hc

theorem StartsTerm.alike (hd : d ∈ enders) {v : List Char} (h : StartsTerm c (v ++ d :: xs))
    (ys : List Char) : StartsTerm c (v ++ d :: ys) :=
  ⟨h.spacing, h.backslash, (startsComment_alike hd (c :: v) ys xs).trans h.comment, h.sign,
    h.quote⟩

/-- A token that is read up to a character that ends it in front of one rest is so in front of every
rest that looks alike to the operators. -/
theorem lexes_apart (hd : d ∈ enders) (hw : '\\' ∉ w) (halike : operators.Alike (d :: xs) (d :: ys))
    {kind : TokenKind} (hk : kind ≠ .quoted) {policy : UnicodePolicy}
    (h : (next policy .operation operators ⟨0, w ++ d :: xs⟩).token = .ofLiteral kind 0 w) :
    ∃ c v, w = c :: v ∧ StartsTerm c (v ++ d :: ys)
      ∧ Lexes .operation (w ++ d :: ys) kind (some (String.ofList w)) (d :: ys) operators := by
  cases w with
  | nil =>
    exfalso
    have hb : d ≠ '\\' := by
      rcases mem_enders.mp hd with rfl | rfl <;> decide
    have hstarts := startsTerm_of_next hb hk rfl h
    rcases mem_enders.mp hd with rfl | rfl
    · exact absurd hstarts.spacing (by decide)
    · exact absurd hstarts.sign (by decide)
  | cons c v =>
    have hc : c ≠ '\\' := fun hc => hw (by simp [hc])
    have hstarts : StartsTerm c (v ++ d :: xs) := startsTerm_of_next hc hk rfl h
    have hys := hstarts.alike hd ys
    refine ⟨c, v, rfl, hys, fun policy' pos => ?_⟩
    rw [List.cons_append, hstarts.lexeme_eq] at h
    rw [List.cons_append, hys.lexeme_eq]
    exact term_apart hd hw halike h policy' pos

theorem sign?_unexpected (c : Char) : sign? .unexpected c = sign? .operation c := by
  unfold sign?
  split <;> rfl

theorem lexes_unexpected (hd : d ∈ enders) {v : List Char} (hv : '\\' ∉ v)
    (h : StartsTerm c (v ++ d :: ys)) :
    ∃ after, Lexes .unexpected (c :: v ++ d :: ys) .unexpected none after operators := by
  obtain ⟨us, vs, hsplit, hword⟩ := word_apart (r := rulesOf .unexpected) (by decide)
    none (w := c :: v) hd (by simp [hv, Ne.symm h.backslash]) ys
  refine ⟨if us = [] then v ++ d :: ys else vs ++ d :: ys, fun policy pos => ?_⟩
  have hw := hword policy pos ys fun _ => rfl
  rw [List.cons_append] at hw ⊢
  rw [h.next_eq]
  simp only [lexeme, sign?_unexpected, h.sign, h.quote, hw, Bool.false_eq_true, if_false, if_true,
    reduceCtorEq]
  refine ⟨⟨pos, rfl⟩, ?_, rfl⟩
  cases us with
  | nil => simp [Cursor.advance]
  | cons u us => simp

theorem skipBlank_blank (pos : Nat) (text : List Char) :
    skipBlank pos (' ' :: text) = skipBlank (pos + 1) text :=
  skipBlank_spacing (by decide)

theorem next_blank (policy : UnicodePolicy) (mode : ReadMode) (operators : OperatorTable)
    (pos : Nat)
    (text : List Char) :
    next policy mode operators ⟨pos, ' ' :: text⟩ = next policy mode operators ⟨pos + 1, text⟩ := by
  simp only [next, skipBlank_blank]

theorem Lexes.blank {mode : ReadMode} {text rest : List Char} {kind : TokenKind}
    {literal : Option String} (h : Lexes mode text kind literal rest operators) :
    Lexes mode (' ' :: text) kind literal rest operators := by
  intro policy pos
  rw [next_blank]
  exact h policy (pos + 1)

/-- What is skipped in front of every token. -/
def Overlooked (lead : List Char) : Prop :=
  ∀ mode text kind literal rest, Lexes mode text kind literal rest →
    Lexes mode (lead ++ text) kind literal rest

theorem overlooked_nil : Overlooked [] := fun _ _ _ _ _ h => h

theorem overlooked_blank : Overlooked [' '] := fun _ _ _ _ _ h => h.blank

end Scan

end ConfigScript
