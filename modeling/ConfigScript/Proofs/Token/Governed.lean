import ConfigScript.Proofs.Token.Fronts
import ConfigScript.Token.Tokenizer

/-! # Reports that options govern

The options say which severity a repeated property and an invalid escape have, and whether the
latter is reported at all. The tokens do not depend on that, and neither do the other reports. -/

namespace ConfigScript

/-- A report on an invalid escape or a repeated property. -/
def Report.isGoverned (r : Report) : Bool :=
  "Invalid unicode escape ".toList.isPrefixOf r.message.toList
    || ("Property '".toList.isPrefixOf r.message.toList
      && "' is already defined".toList.isSuffixOf r.message.toList)

/-- The reports that do not depend on the options. -/
def settled (rs : List Report) : List Report := rs.filter fun r => !r.isGoverned

theorem settled_append (rs ss : List Report) : settled (rs ++ ss) = settled rs ++ settled ss :=
  List.filter_append rs ss

theorem settled_map_orAt (position : Option Nat) (rs : List Report) :
    settled (rs.map (Report.orAt position)) = (settled rs).map (Report.orAt position) :=
  List.filter_map

namespace Scan

variable (policy policy' : UnicodePolicy)

theorem settled_escapeReports (letter : Char) (backslash : Nat) :
    settled (escapeReports policy letter backslash) = [] := by
  have hgoverned (severity : Severity) : Report.isGoverned ⟨severity,
      "Invalid unicode escape '\\" ++ String.ofList [letter] ++ "'", some backslash,
      []⟩ = true := by
    simp [Report.isGoverned, String.toList_append]
  have hnone (severity : Severity) : settled [⟨severity,
      "Invalid unicode escape '\\" ++ String.ofList [letter] ++ "'", some backslash, []⟩] = [] :=
    List.filter_cons_of_neg (by rw [hgoverned]; decide)
  cases policy with
  | error => exact hnone .error
  | warn => exact hnone .warning
  | ignore => rfl

/-- Two policies decode escapes alike. -/
structure Escape.Alike (d e : Escape) : Prop where
  text : d.text = e.text
  used : d.used = e.used
  reports : settled d.reports = settled e.reports

theorem escape_alike (backslash : Nat) (cs : List Char) :
    (escape policy backslash cs).Alike (escape policy' backslash cs) := by
  have hunicode (letter : Char) (n : Nat) (cs : List Char) :
      (unicodeEscape policy letter n backslash cs).Alike
        (unicodeEscape policy' letter n backslash cs) := by
    unfold unicodeEscape
    split
    · exact ⟨rfl, rfl, rfl⟩
    · exact ⟨rfl, rfl, by rw [settled_escapeReports, settled_escapeReports]⟩
  unfold escape
  split
  · exact ⟨rfl, rfl, rfl⟩
  · exact ⟨rfl, rfl, rfl⟩
  · exact ⟨rfl, rfl, rfl⟩
  · exact ⟨rfl, rfl, rfl⟩
  · exact hunicode _ _ _
  · exact hunicode _ _ _
  · exact ⟨rfl, rfl, rfl⟩

structure Word.Alike (v w : Word) : Prop where
  text : v.text = w.text
  escaped : v.escaped = w.escaped
  after : v.after = w.after
  reports : settled v.reports = settled w.reports

theorem Word.Alike.refl (w : Word) : w.Alike w := ⟨rfl, rfl, rfl, rfl⟩

theorem word_alike (r : WordRules) (operators : Option OperatorTable) (blanks : List Char)
    (pos : Nat) (cs : List Char) : (word policy r operators blanks pos cs).Alike
      (word policy' r operators blanks pos cs) := by
  fun_induction word policy r operators blanks pos cs with
  | case1 blanks pos =>
    rw [word_nil]
    exact .refl _
  | case2 blanks pos c rest hs hb =>
    rw [word_spacing_stop hs hb]
    exact .refl _
  | case3 blanks pos c rest hs hb ih =>
    rw [word_spacing hs hb]
    exact ih
  | case4 blanks pos c rest hs hj ih =>
    rw [word_joined hj]
    exact ih
  | case5 blanks pos c rest hs hj after closed hk hb =>
    rw [word_comment_stop hk hb]
    exact .refl _
  | case6 blanks pos c rest hs hj after closed hk hb w ih =>
    rw [word_comment hk hb]
    exact ⟨ih.text, ih.escaped, ih.after, by rw [settled_append, settled_append, ih.reports]⟩
  | case7 blanks pos c rest hs hj hk hstop =>
    rw [word_here hs hj hk, if_pos hstop]
    exact .refl _
  | case8 blanks pos c rest hs hj hk hstop hc e w ih =>
    have he := escape_alike policy policy' pos rest
    rw [word_here hs hj hk, if_neg hstop, if_pos hc]
    simp only [← he.used]
    exact ⟨by rw [he.text, ih.text], rfl, ih.after,
      by rw [settled_append, settled_append, he.reports, ih.reports]⟩
  | case9 blanks pos c rest hs hj hk hstop hc w ih =>
    rw [word_here hs hj hk, if_neg hstop, if_neg hc]
    exact ⟨by rw [ih.text], ih.escaped, ih.after, ih.reports⟩

theorem quoted_alike (quote : Char) (start pos : Nat) (cs : List Char) :
    (quoted policy quote start pos cs).Alike (quoted policy' quote start pos cs) := by
  fun_induction quoted policy quote start pos cs with
  | case1 pos =>
    rw [quoted]
    exact .refl _
  | case2 pos c rest hq =>
    rw [quoted]
    simp only [hq, if_true]
    exact .refl _
  | case3 pos c rest hq hc hj ih =>
    rw [quoted]
    simp only [hq, hc, hj, Bool.false_eq_true, if_false, if_true]
    exact ih
  | case4 pos c rest hq hc hj e w ih =>
    rw [quoted]
    have he := escape_alike policy policy' pos rest
    simp only [hq, hc, hj, Bool.false_eq_true, if_false, if_true, ← he.used]
    exact ⟨by rw [he.text, ih.text], rfl, ih.after,
      by rw [settled_append, settled_append, he.reports, ih.reports]⟩
  | case5 pos c rest hq hc hn rest' w ih =>
    rw [quoted]
    simp only [hq, hc, hn, Bool.false_eq_true, if_false, if_true]
    exact ⟨by rw [ih.text], ih.escaped, ih.after, ih.reports⟩
  | case6 pos c rest hq hc hn w ih =>
    rw [quoted]
    simp only [hq, hc, hn, Bool.false_eq_true, if_false]
    exact ⟨by rw [ih.text], ih.escaped, ih.after, ih.reports⟩

/-! ## Tokens -/

/-- The same token up to the same place, with the same settled reports. -/
structure Lexeme.Alike (l m : Lexeme) : Prop where
  token : l.token = m.token
  after : l.after = m.after
  reports : settled l.reports = settled m.reports

theorem Lexeme.Alike.refl (l : Lexeme) : l.Alike l := ⟨rfl, rfl, rfl⟩

theorem term_alike (operators : OperatorTable) (c : Cursor) :
    (term policy operators c).Alike (term policy' operators c) := by
  unfold term
  split
  · exact .refl _
  · split
    · exact .refl _
    · have hw := word_alike policy policy' (rulesOf .operation) (some operators) [] c.pos c.rest
      exact ⟨by simp only [hw.text, hw.escaped], hw.after, hw.reports⟩

theorem lexeme_alike (mode : ReadMode) (operators : OperatorTable) (c : Cursor) :
    (lexeme policy mode operators c).Alike (lexeme policy' mode operators c) := by
  unfold lexeme
  split
  · exact .refl _
  · rename_i ch rest hc
    split
    · exact .refl _
    · have hq := quoted_alike policy policy' ch c.pos (c.pos + 1) (c.rest.drop 1)
      have hw := word_alike policy policy' (rulesOf mode) none [] c.pos c.rest
      split
      · exact ⟨by simp only [hq.text], hq.after, hq.reports⟩
      · split
        · exact term_alike policy policy' operators c
        · simp only [← hw.text, ← hw.escaped, ← hw.after]
          split
          · exact ⟨rfl, rfl, hw.reports⟩
          · exact ⟨rfl, rfl, hw.reports⟩

theorem next_alike (mode : ReadMode) (operators : OperatorTable) (c : Cursor) :
    (next policy mode operators c).Alike (next policy' mode operators c) := by
  have hl := lexeme_alike policy policy' mode operators (skipBlank c.pos c.rest).1
  exact ⟨hl.token, hl.after, by
    rw [next, next, settled_append, settled_append, hl.reports]⟩

end Scan

/-! ## The tokenizer -/

namespace Tokenizer

/-- Keys of reports that do not depend on the options. -/
def settledKeys (keys : List (Option Nat × String)) : List (Option Nat × String) :=
  keys.filter fun key => !(Report.mk .error key.2 key.1 []).isGoverned

/-- Equal in all but the policy and what was reported because of it. -/
structure Agree (t u : Tokenizer) : Prop where
  taken : t.taken = u.taken
  ahead : t.ahead = u.ahead
  cursor : t.cursor = u.cursor
  lastStart : t.lastStart = u.lastStart
  reports : settled t.reports = settled u.reports
  reported : settledKeys t.reported = settledKeys u.reported

variable {t u : Tokenizer}

theorem agree_ofChars (policy policy' : UnicodePolicy) (cs : List Char) :
    (ofChars policy cs).Agree (ofChars policy' cs) := ⟨rfl, rfl, rfl, rfl, rfl, rfl⟩

theorem Agree.refl (t : Tokenizer) : t.Agree t := ⟨rfl, rfl, rfl, rfl, rfl, rfl⟩

theorem Agree.symm (h : t.Agree u) : u.Agree t :=
  ⟨h.taken.symm, h.ahead.symm, h.cursor.symm, h.lastStart.symm, h.reports.symm, h.reported.symm⟩

theorem Agree.trans {v : Tokenizer} (h : t.Agree u) (g : u.Agree v) : t.Agree v :=
  ⟨h.taken.trans g.taken, h.ahead.trans g.ahead, h.cursor.trans g.cursor,
    h.lastStart.trans g.lastStart, h.reports.trans g.reports, h.reported.trans g.reported⟩

/-! ### Queued reports -/

theorem queue_cons (t : Tokenizer) (r : Report) (rs : List Report) :
    t.queue (r :: rs) = (t.queue [r]).queue rs := rfl

theorem mem_settledKeys {r : Report} (hr : r.isGoverned = false)
    (keys : List (Option Nat × String)) :
    (r.position, r.message) ∈ settledKeys keys ↔ (r.position, r.message) ∈ keys := by
  have hkey : (Report.mk .error r.message r.position []).isGoverned = false := hr
  simp [settledKeys, hkey]

/-- A report that the options govern makes no difference. -/
theorem agree_queue_governed (t : Tokenizer) {r : Report} (hr : r.isGoverned = true) :
    (t.queue [r]).Agree t := by
  have hkey : (Report.mk .error r.message r.position []).isGoverned = true := hr
  change Agree (if t.reported.contains (r.position, r.message) then t else _) t
  split
  · exact .refl t
  · refine ⟨rfl, rfl, rfl, rfl, ?_, ?_⟩
    · simp [settled, hr]
    · simp [settledKeys, hkey]

theorem Agree.queue_settled (h : t.Agree u) {r : Report} (hr : r.isGoverned = false) :
    (t.queue [r]).Agree (u.queue [r]) := by
  have hkey : (Report.mk .error r.message r.position []).isGoverned = false := hr
  have hcontains : t.reported.contains (r.position, r.message)
      = u.reported.contains (r.position, r.message) := by
    rw [Bool.eq_iff_iff, List.contains_iff_mem, List.contains_iff_mem,
      ← mem_settledKeys hr t.reported, ← mem_settledKeys hr u.reported, h.reported]
  change Agree (if t.reported.contains (r.position, r.message) then t else _)
    (if u.reported.contains (r.position, r.message) then u else _)
  rw [hcontains]
  split
  · exact h
  · refine ⟨h.taken, h.ahead, h.cursor, h.lastStart, ?_, ?_⟩
    · rw [settled_append, settled_append, h.reports]
    · have := h.reported
      simp [settledKeys, hkey] at this ⊢
      exact this

theorem Agree.queue_settledOnly (h : t.Agree u) (rs : List Report) :
    (t.queue rs).Agree (u.queue (settled rs)) := by
  induction rs generalizing t u with
  | nil => exact h
  | cons r rs ih =>
    rw [queue_cons]
    cases hr : r.isGoverned with
    | true =>
      rw [settled, List.filter_cons_of_neg (by simp [hr])]
      exact ih ((agree_queue_governed t hr).trans h)
    | false =>
      rw [settled, List.filter_cons_of_pos (by simp [hr]), queue_cons]
      exact ih (h.queue_settled hr)

theorem Agree.queue (h : t.Agree u) {rs ss : List Report} (hrs : settled rs = settled ss) :
    (t.queue rs).Agree (u.queue ss) :=
  (h.queue_settledOnly rs).trans (hrs ▸ ((Agree.refl u).queue_settledOnly ss).symm)

/-! ### Reading on -/

theorem Agree.advance (h : t.Agree u) (mode : ReadMode) (operators : OperatorTable) :
    (t.advance mode operators).1 = (u.advance mode operators).1
      ∧ (t.advance mode operators).2.Agree (u.advance mode operators).2 := by
  unfold Tokenizer.advance
  rw [h.ahead]
  split
  · exact ⟨rfl, by simp only [h.taken], rfl, h.cursor, h.lastStart, h.reports, h.reported⟩
  · have hl := Scan.next_alike t.policy u.policy mode operators t.cursor
    have hq := h.queue hl.reports
    rw [← h.cursor]
    exact ⟨hl.token, by simp only [h.taken, hl.token], hq.ahead, hl.after, hq.lastStart,
      hq.reports, hq.reported⟩

theorem Agree.nextPastBreaks (h : t.Agree u) (mode : ReadMode) (operators : OperatorTable)
    (n : Nat) :
    (nextPastBreaks mode operators n t).1 = (nextPastBreaks mode operators n u).1
      ∧ (nextPastBreaks mode operators n t).2.Agree (nextPastBreaks mode operators n u).2 := by
  induction n generalizing t u with
  | zero => exact h.advance mode operators
  | succ n ih =>
    obtain ⟨htoken, hafter⟩ := h.advance mode operators
    rw [Tokenizer.nextPastBreaks, Tokenizer.nextPastBreaks]
    simp only [htoken]
    split
    · exact ih hafter
    · exact ⟨rfl, hafter⟩

theorem Agree.next (h : t.Agree u) (skipBreaks : Bool) (mode : ReadMode)
    (operators : OperatorTable) :
    (t.next skipBreaks mode operators).1 = (u.next skipBreaks mode operators).1
      ∧ (t.next skipBreaks mode operators).2.Agree (u.next skipBreaks mode operators).2 := by
  have hr : t.remaining = u.remaining := by rw [remaining, remaining, h.ahead, h.cursor]
  have hread : (if skipBreaks then Tokenizer.nextPastBreaks mode operators t.remaining t
      else t.advance mode operators).1
        = (if skipBreaks then Tokenizer.nextPastBreaks mode operators u.remaining u
          else u.advance mode operators).1
      ∧ (if skipBreaks then Tokenizer.nextPastBreaks mode operators t.remaining t
        else t.advance mode operators).2.Agree
          (if skipBreaks then Tokenizer.nextPastBreaks mode operators u.remaining u
            else u.advance mode operators).2 := by
    rw [hr]
    split
    · exact h.nextPastBreaks mode operators u.remaining
    · exact h.advance mode operators
  obtain ⟨htoken, ha⟩ := hread
  exact ⟨htoken, ha.taken, ha.ahead, ha.cursor, congrArg Token.start htoken, ha.reports,
    ha.reported⟩

theorem Agree.discard (h : t.Agree u) : t.discard.Agree u.discard :=
  ⟨rfl, h.ahead, h.cursor, h.lastStart, h.reports, h.reported⟩

theorem Agree.committed (h : t.Agree u) : t.committed = u.committed := by
  rw [Tokenizer.committed, Tokenizer.committed, h.taken, h.ahead, h.cursor]

theorem Agree.replay (h : t.Agree u) : t.replay.Agree u.replay :=
  ⟨rfl, by rw [Tokenizer.replay, Tokenizer.replay, h.taken, h.ahead], h.cursor, h.lastStart,
    h.reports, h.reported⟩

theorem Agree.reread (h : t.Agree u) : t.reread.Agree u.reread :=
  ⟨rfl, rfl, h.committed, h.lastStart, h.reports, h.reported⟩

end Tokenizer

end ConfigScript
