import ConfigScript.Proofs.Token.Kept

/-! # Where lexical reports stand

A lexical report stands between the place where the reading of its token began and the end of the
text, and so do the tokens. -/

namespace ConfigScript

open Cursor

variable {A : Nat → Prop}

/-- The report has a position, with a property. -/
def Report.Stands (A : Nat → Prop) (r : Report) : Prop := ∃ p, r.position = some p ∧ A p

def ReportsStand (A : Nat → Prop) (rs : List Report) : Prop := ∀ r ∈ rs, r.Stands A

theorem reportsStand_nil : ReportsStand A [] := by simp [ReportsStand]

theorem ReportsStand.append {rs ss : List Report} (hr : ReportsStand A rs)
    (hs : ReportsStand A ss) : ReportsStand A (rs ++ ss) :=
  List.forall_mem_append.mpr ⟨hr, hs⟩

theorem reportsStand_singleton {r : Report} {p : Nat} (hr : r.position = some p) (hp : A p) :
    ReportsStand A [r] := by
  simpa [ReportsStand] using ⟨p, hr, hp⟩

/-- All positions from a place on have a property, up to the end of the text. -/
def Cursor.Inside (A : Nat → Prop) (c : Cursor) : Prop :=
  ∀ p, c.pos ≤ p → p ≤ c.pos + c.rest.length → A p

theorem Cursor.Inside.pos {c : Cursor} (h : c.Inside A) : A c.pos :=
  h c.pos (Nat.le_refl _) (Nat.le_add_right _ _)

theorem Cursor.Inside.reaches {c d : Cursor} (h : c.Inside A) (hd : c.Reaches d) : d.Inside A := by
  intro p hlow hhigh
  have hend := hd.pos_add
  have hrest := hd.length_le
  exact h p (by omega) (by omega)

namespace Scan

/-! ## Single tokens -/

/-- Every report that the scanner has cause for, at positions with one property, has another. -/
structure Raises (A : Nat → Prop) (P : Report → Prop) : Prop where
  comment {p : Nat} : A p → P (Report.errorAt "Unterminated block comment" (some p))
  primitive {p : Nat} : A p → P (Report.errorAt "Unterminated primitive" (some p))
  escape (policy : UnicodePolicy) (letter : Char) {p : Nat} :
    A p → ∀ r ∈ escapeReports policy letter p, P r

section

variable {P : Report → Prop} (hP : Raises A P)
include hP

theorem commentReports_raise {pos : Nat} (h : A pos) (closed : Bool) :
    ∀ r ∈ commentReports pos closed, P r := by
  cases closed with
  | true => exact List.forall_mem_nil _
  | false => exact List.forall_mem_singleton.mpr (hP.comment h)

theorem skipBlank_raise (pos : Nat) (cs : List Char) (h : Inside A ⟨pos, cs⟩) :
    ∀ r ∈ (skipBlank pos cs).2, P r := by
  fun_induction skipBlank pos cs with
  | case1 pos => exact List.forall_mem_nil _
  | case2 pos c rest _ ih => exact ih (h.reaches (reaches_cons pos c rest))
  | case3 pos c rest _ hj ih =>
    simp only [Bool.and_eq_true] at hj
    exact ih (h.reaches (reaches_join pos c hj.2))
  | case4 pos c rest _ _ after closed hk _ r ih =>
    exact List.forall_mem_append.mpr ⟨commentReports_raise hP h.pos closed,
      ih (h.reaches (reaches_suffix pos (afterComment?_suffix hk)))⟩
  | case5 pos c rest => exact List.forall_mem_nil _

theorem escape_raise (policy : UnicodePolicy) {backslash : Nat} (h : A backslash)
    (cs : List Char) : ∀ r ∈ (escape policy backslash cs).reports, P r := by
  have hunicode (letter : Char) (n : Nat) (cs : List Char) :
      ∀ r ∈ (unicodeEscape policy letter n backslash cs).reports, P r := by
    unfold unicodeEscape
    split
    · exact List.forall_mem_nil _
    · exact hP.escape policy letter h
  unfold escape
  split
  · exact List.forall_mem_nil _
  · exact List.forall_mem_nil _
  · exact List.forall_mem_nil _
  · exact List.forall_mem_nil _
  · exact hunicode _ _ _
  · exact hunicode _ _ _
  · exact List.forall_mem_nil _

theorem word_raise (policy : UnicodePolicy) (r : WordRules) (operators : Option OperatorTable)
    (blanks : List Char) (pos : Nat) (cs : List Char) (h : Inside A ⟨pos, cs⟩) :
    ∀ x ∈ (word policy r operators blanks pos cs).reports, P x := by
  fun_induction word policy r operators blanks pos cs with
  | case1 blanks pos => exact List.forall_mem_nil _
  | case2 blanks pos c rest => exact List.forall_mem_nil _
  | case3 blanks pos c rest _ _ ih => exact ih (h.reaches (reaches_cons pos c rest))
  | case4 blanks pos c rest _ hj ih =>
    simp only [Bool.and_eq_true] at hj
    exact ih (h.reaches (reaches_join pos c hj.2))
  | case5 blanks pos c rest => exact List.forall_mem_nil _
  | case6 blanks pos c rest _ _ after closed hk _ w ih =>
    exact List.forall_mem_append.mpr ⟨commentReports_raise hP h.pos closed,
      ih (h.reaches (reaches_suffix pos (afterComment?_suffix hk)))⟩
  | case7 blanks pos c rest => exact List.forall_mem_nil _
  | case8 blanks pos c rest _ _ _ _ _ e w ih =>
    exact List.forall_mem_append.mpr ⟨escape_raise hP policy h.pos rest,
      ih (h.reaches (reaches_escape policy pos c rest))⟩
  | case9 blanks pos c rest _ _ _ _ _ w ih => exact ih (h.reaches (reaches_cons pos c rest))

theorem quoted_raise (policy : UnicodePolicy) (quote : Char) {first : Nat} (hf : A first)
    (pos : Nat) (cs : List Char) (h : Inside A ⟨pos, cs⟩) :
    ∀ r ∈ (quoted policy quote first pos cs).reports, P r := by
  fun_induction quoted policy quote first pos cs with
  | case1 pos => exact List.forall_mem_singleton.mpr (hP.primitive hf)
  | case2 pos c rest => exact List.forall_mem_nil _
  | case3 pos c rest _ _ hj ih => exact ih (h.reaches (reaches_join pos c hj))
  | case4 pos c rest _ _ _ e w ih =>
    exact List.forall_mem_append.mpr ⟨escape_raise hP policy h.pos rest,
      ih (h.reaches (reaches_escape policy pos c rest))⟩
  | case5 pos c rest _ _ _ rest' w ih =>
    exact ih (h.reaches ((reaches_cons pos c rest).trans
      (reaches_suffix _ (skipMargin_suffix rest))))
  | case6 pos c rest _ _ _ w ih => exact ih (h.reaches (reaches_cons pos c rest))

theorem lexeme_raise (policy : UnicodePolicy) (mode : ReadMode) (operators : OperatorTable)
    {c : Cursor} (h : c.Inside A) : ∀ r ∈ (lexeme policy mode operators c).reports, P r := by
  have hword (r : WordRules) (operators : Option OperatorTable) :
      ∀ x ∈ (word policy r operators [] c.pos c.rest).reports, P x :=
    word_raise hP policy r operators [] c.pos c.rest h
  unfold lexeme
  split
  · exact List.forall_mem_nil _
  · rename_i ch rest hc
    split
    · exact List.forall_mem_nil _
    · split
      · refine quoted_raise hP policy ch h.pos (c.pos + 1) (c.rest.drop 1) (h.reaches ?_)
        rw [hc]
        exact ⟨[ch], hc, rfl⟩
      · split
        · unfold term
          split
          · exact List.forall_mem_nil _
          · split
            · exact List.forall_mem_nil _
            · exact hword _ _
        · split
          · exact hword _ _
          · exact hword _ _

theorem next_raise (policy : UnicodePolicy) (mode : ReadMode) (operators : OperatorTable)
    {c : Cursor} (h : c.Inside A) : ∀ r ∈ (next policy mode operators c).reports, P r :=
  List.forall_mem_append.mpr ⟨skipBlank_raise hP c.pos c.rest h,
    lexeme_raise hP policy mode operators (h.reaches (skipBlank_reaches c.pos c.rest))⟩

end

theorem raises_stands : Raises A (Report.Stands A) where
  comment h := ⟨_, rfl, h⟩
  primitive h := ⟨_, rfl, h⟩
  escape policy letter p h := by
    cases policy with
    | error => exact reportsStand_singleton rfl h
    | warn => exact reportsStand_singleton rfl h
    | ignore => exact reportsStand_nil

theorem next_stand (policy : UnicodePolicy) (mode : ReadMode) (operators : OperatorTable)
    {c : Cursor} (h : c.Inside A) : ReportsStand A (next policy mode operators c).reports :=
  next_raise raises_stands policy mode operators h

end Scan

/-! ## The tokenizer -/

namespace Tokenizer

/-- Tokens, places and reports of the tokenizer stand where positions have a property. -/
structure Placed (A : Nat → Prop) (t : Tokenizer) : Prop where
  kept : ∀ e ∈ t.taken ++ t.ahead, A e.1.start ∧ e.2.Inside A
  cursor : t.cursor.Inside A
  lastStart : A t.lastStart
  reports : ReportsStand A t.reports

variable {t : Tokenizer}

theorem placed_ofChars (policy : UnicodePolicy) {cs : List Char} (h : ∀ p ≤ cs.length, A p) :
    (ofChars policy cs).Placed A :=
  ⟨by simp [ofChars], fun p _ hp => h p (by simpa [ofChars, Cursor.start] using hp),
    h 0 (Nat.zero_le _), reportsStand_nil⟩

theorem Placed.queue (h : t.Placed A) {rs : List Report} (hr : ReportsStand A rs) :
    (t.queue rs).Placed A := by
  refine queue_induction h fun u r hmem hu => ?_
  refine ⟨hu.kept, hu.cursor, hu.lastStart, hu.reports.append ?_⟩
  simpa [ReportsStand] using hr r hmem

theorem Placed.advance (h : t.Placed A) (mode : ReadMode) (operators : OperatorTable) :
    A (t.advance mode operators).1.start ∧ (t.advance mode operators).2.Placed A := by
  unfold Tokenizer.advance
  split
  · rename_i e es he
    have hkept := h.kept
    rw [he] at hkept
    exact ⟨(hkept e (by simp)).1, ⟨by simpa using hkept, h.cursor, h.lastStart, h.reports⟩⟩
  · rename_i he
    have hstart : A (Scan.next t.policy mode operators t.cursor).token.start := by
      rw [Scan.next_start]
      exact (h.cursor.reaches (Scan.skipBlank_reaches t.cursor.pos t.cursor.rest)).pos
    have hq := h.queue (Scan.next_stand t.policy mode operators h.cursor)
    refine ⟨hstart, ⟨?_, h.cursor.reaches (Scan.next_reaches _ _ _ _), hq.lastStart, hq.reports⟩⟩
    have hkept := hq.kept
    simp only [(queue_kept t _).1, (queue_kept t _).2.1, he, List.append_nil] at hkept ⊢
    exact List.forall_mem_append.mpr ⟨hkept, by simpa using ⟨hstart, h.cursor⟩⟩

theorem Placed.nextPastBreaks (h : t.Placed A) (mode : ReadMode) (operators : OperatorTable)
    (n : Nat) : A (nextPastBreaks mode operators n t).1.start
      ∧ (nextPastBreaks mode operators n t).2.Placed A := by
  induction n generalizing t with
  | zero => exact h.advance mode operators
  | succ n ih =>
    obtain ⟨hstart, hnext⟩ := h.advance mode operators
    rw [Tokenizer.nextPastBreaks]
    simp only
    split
    · exact ih hnext
    · exact ⟨hstart, hnext⟩

theorem Placed.next (h : t.Placed A) (skipBreaks : Bool) (mode : ReadMode)
    (operators : OperatorTable) : A (t.next skipBreaks mode operators).1.start
      ∧ (t.next skipBreaks mode operators).2.Placed A := by
  have hread : A (if skipBreaks then Tokenizer.nextPastBreaks mode operators t.remaining t
      else t.advance mode operators).1.start
      ∧ (if skipBreaks then Tokenizer.nextPastBreaks mode operators t.remaining t
        else t.advance mode operators).2.Placed A := by
    split
    · exact h.nextPastBreaks mode operators t.remaining
    · exact h.advance mode operators
  exact ⟨hread.1, hread.2.kept, hread.2.cursor, hread.1, hread.2.reports⟩

theorem Placed.discard (h : t.Placed A) : t.discard.Placed A :=
  ⟨fun e he => h.kept e (List.mem_append_right _ (by simpa [Tokenizer.discard] using he)),
    h.cursor, h.lastStart, h.reports⟩

theorem Placed.replay (h : t.Placed A) : t.replay.Placed A :=
  ⟨by simpa [Tokenizer.replay] using h.kept, h.cursor, h.lastStart, h.reports⟩

theorem Placed.committed (h : t.Placed A) : t.committed.Inside A := by
  have hkept := h.kept
  unfold Tokenizer.committed
  split
  · rename_i e es he
    rw [he] at hkept
    exact (hkept e List.mem_cons_self).2
  · exact h.cursor

theorem Placed.reread (h : t.Placed A) : t.reread.Placed A :=
  ⟨by simp [Tokenizer.reread], h.committed, h.lastStart, h.reports⟩

end Tokenizer

end ConfigScript
