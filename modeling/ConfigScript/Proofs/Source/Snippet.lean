import ConfigScript.Proofs.Source.Lines

/-! # Snippets

A snippet is a piece of the line of a position with the position marked in it. The window of a long
line is as wide as it is, also where the line ends sooner: close to the end of a long line with
further lines behind it, a snippet runs into these. -/

namespace ConfigScript.Source

open Text

variable {s : Source} {p : Nat} {front line back : List Char}

def hereMark : List Char := "/* HERE >>> */".toList

def behindMark : List Char := "  // <<< HERE".toList

/-- A piece of a line, no wider than a snippet, with a place of the line marked: in front of its
character, if the line has one there, and else at the end. -/
inductive Marked (line : List Char) (place : Nat) : List Char → Prop
  | inside (before shown found after : List Char)
    (line_eq : line = before ++ (shown ++ found) ++ after)
    (place_eq : place = before.length + shown.length) (found_ne : found ≠ [])
    (short : (shown ++ found).length ≤ snippetWidth) :
    Marked line place (shown ++ hereMark ++ found)
  | behind (before shown after : List Char) (line_eq : line = before ++ shown ++ after)
    (place_eq : place = line.length) (short : shown.length ≤ snippetWidth) :
    Marked line place (shown ++ behindMark)

theorem Marked.mem {place : Nat} {cs : List Char} (h : Marked line place cs) {c : Char}
    (hc : c ∈ cs) : c ∈ line ∨ c ∈ hereMark ∨ c ∈ behindMark := by
  cases h with
  | inside before shown found after line_eq =>
    simp only [List.mem_append] at hc
    rcases hc with (hc | hc) | hc
    · exact .inl (by simp [line_eq, hc])
    · exact .inr (.inl hc)
    · exact .inl (by simp [line_eq, hc])
  | behind before shown after line_eq =>
    rcases List.mem_append.mp hc with hc | hc
    · exact .inl (by simp [line_eq, hc])
    · exact .inr (.inr hc)

/-! ## Windows -/

def visible (cs : List Char) : List Char := cs.filter fun c => c != '\r' && c != '\n'

theorem visible_of_inLine {cs : List Char} (h : ∀ c ∈ cs, InLine c) : visible cs = cs := by
  refine List.filter_eq_self.mpr fun c hc => ?_
  simpa using ⟨(h c hc).2, (h c hc).1⟩

theorem visible_append (cs ds : List Char) : visible (cs ++ ds) = visible cs ++ visible ds :=
  List.filter_append cs ds

def markedWindow (window : List Char) (place : Nat) : List Char :=
  if window.length ≤ place then visible window ++ behindMark
  else visible (window.take place) ++ hereMark ++ visible (window.drop place)

def windowStart (front line : List Char) (p : Nat) : Nat :=
  if snippetWidth < line.length then p - front.length - snippetLead else 0

theorem snippet_eq (h : s.Surrounds p front line back) :
    (s.snippet p).toList = markedWindow
      (((line ++ back).drop (windowStart front line p)).take (min line.length snippetWidth))
      (p - front.length - windowStart front line p) := by
  have hspan : s.lineSpan? (s.lineAt p)
      = some (front.length, front.length + line.length, line.length) := by
    rw [lineSpan?, h.start, h.last]
    simp
  have hdrop (n : Nat) (hn : front.length ≤ n) :
      s.charsFrom n = (line ++ back).drop (n - front.length) := by
    rw [charsFrom, h.chars, List.append_assoc, List.drop_append, List.drop_eq_nil_of_le hn,
      List.nil_append]
  have hle := h.start_le
  have hfirst : max front.length (p - snippetLead) - front.length
      = p - front.length - snippetLead := by omega
  unfold snippet windowStart markedWindow
  simp only [hspan]
  by_cases hlong : snippetWidth < line.length
  · have hplace : p - max front.length (p - snippetLead)
        = p - front.length - (p - front.length - snippetLead) := by omega
    have hmin : min line.length snippetWidth = snippetWidth := by omega
    simp only [if_pos hlong, hdrop _ (Nat.le_max_left _ _), hfirst, hplace, hmin]
    generalize ((line ++ back).drop (p - front.length - snippetLead)).take snippetWidth = window
    have hcond : max front.length (p - snippetLead) + window.length ≤ p
        ↔ window.length ≤ p - front.length - (p - front.length - snippetLead) := by omega
    simp only [hcond]
    split
    · simp only [String.toList_append, String.toList_ofList]
      rfl
    · simp only [String.toList_append, String.toList_ofList]
      rfl
  · have hmin : min line.length snippetWidth = line.length := by omega
    simp only [if_neg hlong, hdrop _ (Nat.le_refl _), Nat.sub_self, Nat.sub_zero, hmin]
    generalize ((line ++ back).drop 0).take line.length = window
    have hcond : front.length + window.length ≤ p ↔ window.length ≤ p - front.length := by omega
    simp only [hcond]
    split
    · simp only [String.toList_append, String.toList_ofList]
      rfl
    · simp only [String.toList_append, String.toList_ofList]
      rfl

theorem marked_markedWindow (before shown after : List Char) {start place : Nat}
    (hline : line = before ++ shown ++ after) (hstart : before.length = start)
    (hin : ∀ c ∈ line, InLine c) (hshort : shown.length ≤ snippetWidth)
    (hplace : start + place ≤ line.length) (hafter : after ≠ [] → place < shown.length) :
    Marked line (start + place) (markedWindow shown place) := by
  have hvisible (cs : List Char) (hcs : ∀ c ∈ cs, c ∈ shown) : visible cs = cs :=
    visible_of_inLine fun c hc => hin c (by simp [hline, hcs c hc])
  unfold markedWindow
  split
  · rename_i hle
    have hnil : after = [] := Classical.byContradiction fun hne => by
      have := hafter hne
      omega
    have hlen := congrArg List.length hline
    simp only [hnil, List.append_nil, List.length_append] at hlen
    rw [hvisible shown fun _ => id]
    exact .behind before shown after hline (by omega) hshort
  · rename_i hlt
    rw [hvisible _ fun _ => List.mem_of_mem_take, hvisible _ fun _ => List.mem_of_mem_drop]
    refine .inside before _ _ after ?_ ?_ ?_ ?_
    · rw [List.take_append_drop]
      exact hline
    · rw [List.length_take]
      omega
    · rw [Ne, List.drop_eq_nil_iff]
      exact hlt
    · rw [List.take_append_drop]
      exact hshort

/-- Where the window stays in the line, or nothing stands behind the line, a snippet shows the
line. -/
theorem marked_snippet (h : s.Surrounds p front line back)
    (hfits : line.length ≤ snippetWidth
      ∨ p + (snippetWidth - snippetLead) ≤ front.length + line.length
      ∨ back = []) : Marked line (p - front.length) (s.snippet p).toList := by
  have hle := h.start_le
  have hlast := h.le_last
  rw [snippet_eq h]
  by_cases hlong : snippetWidth < line.length
  · have hmin : min line.length snippetWidth = snippetWidth := by omega
    rw [windowStart, if_pos hlong, hmin]
    have hwindow : ((line ++ back).drop (p - front.length - snippetLead)).take snippetWidth
        = (line.drop (p - front.length - snippetLead)).take snippetWidth := by
      rcases hfits with hshort | hroom | rfl
      · omega
      · have hroom' : p - front.length - snippetLead + snippetWidth ≤ line.length := by
          simp only [snippetWidth, snippetLead] at *
          omega
        rw [List.drop_append_of_le_length (by omega), List.take_append_of_le_length]
        rw [List.length_drop]
        omega
      · rw [List.append_nil]
    rw [hwindow]
    generalize hstart : p - front.length - snippetLead = start
    obtain ⟨k, hk⟩ : ∃ k, p - front.length = start + k := ⟨p - front.length - start, by omega⟩
    rw [hk, Nat.add_sub_cancel_left]
    refine marked_markedWindow (line.take start) _ (line.drop (start + snippetWidth)) ?_ ?_
      h.inLine ?_ (by omega) ?_
    · rw [List.append_assoc, ← List.drop_drop, List.take_append_drop, List.take_append_drop]
    · rw [List.length_take]
      omega
    · exact List.length_take_le _ _
    · rw [Ne, List.drop_eq_nil_iff, List.length_take, List.length_drop]
      intro hafter
      simp only [snippetWidth, snippetLead] at *
      omega
  · have hmin : min line.length snippetWidth = line.length := by omega
    have hwindow : ((line ++ back).drop 0).take line.length = line := by simp
    rw [windowStart, if_neg hlong, hmin, hwindow]
    have hmarked : Marked line (0 + (p - front.length)) (markedWindow line (p - front.length)) :=
      marked_markedWindow [] line [] (by simp) rfl h.inLine (by omega) (by omega) (by simp)
    rw [Nat.sub_zero]
    simpa using hmarked

/-- Where the window runs over the end of a line that is not the last, what is shown goes on with
the text behind the line. -/
theorem snippet_overrun (h : s.Surrounds p front line back) (hlong : snippetWidth < line.length)
    (hover : front.length + line.length < p + (snippetWidth - snippetLead)) (hback : back ≠ []) :
    (s.snippet p).toList = (line.drop (p - front.length - snippetLead)).take snippetLead ++ hereMark
      ++ line.drop (p - front.length)
      ++ visible (back.take (p + (snippetWidth - snippetLead) - (front.length + line.length))) := by
  have hle := h.start_le
  have hlast := h.le_last
  have hvisible (cs : List Char) (hcs : ∀ c ∈ cs, c ∈ line) : visible cs = cs :=
    visible_of_inLine fun c hc => h.inLine c (hcs c hc)
  have hmin : min line.length snippetWidth = snippetWidth := by omega
  rw [snippet_eq h, windowStart, if_pos hlong, hmin]
  generalize hplace : p - front.length = place
  simp only [snippetWidth, snippetLead] at *
  have hstart : place - (place - 30) = 30 := by omega
  have hover' : place - 30 + 50 - line.length = p + (50 - 30) - (front.length + line.length) := by
    omega
  have hwindow : ((line ++ back).drop (place - 30)).take 50
      = line.drop (place - 30) ++ back.take (p + (50 - 30) - (front.length + line.length)) := by
    rw [List.drop_append_of_le_length (by omega), List.take_append, List.take_of_length_le,
      List.length_drop, ← hover']
    · congr 2
      omega
    · rw [List.length_drop]
      omega
  have hback' : 0 < back.length := List.length_pos_iff.mpr hback
  rw [hwindow, hstart, markedWindow, if_neg]
  · rw [List.take_append_of_le_length, List.drop_append_of_le_length, List.drop_drop,
      visible_append, hvisible _ fun _ hc => List.mem_of_mem_drop (List.mem_of_mem_take hc),
      hvisible _ fun _ => List.mem_of_mem_drop]
    · have hsum : place - 30 + 30 = place := by omega
      rw [hsum, List.append_assoc, List.append_assoc, List.append_assoc]
    · rw [List.length_drop]
      omega
    · rw [List.length_drop]
      omega
  · rw [List.length_append, List.length_drop, List.length_take]
    omega

/-- A snippet shows the line of its position, at most as many characters of it as a snippet is wide,
with the position marked, unless the line is long, is not the last, and ends less than twenty
characters behind the position. There the piece of the line is followed by text from behind the
line. -/
theorem snippet_of_position (text : String) (p : Nat) (hp : p ≤ (ofText text).length) :
    ∃ front line back, (ofText text).Surrounds p front line back
      ∧ ((line.length ≤ 50 ∨ p + 20 ≤ front.length + line.length ∨ back = []) →
        Marked line (p - front.length) ((ofText text).snippet p).toList)
      ∧ (50 < line.length → front.length + line.length < p + 20 → back ≠ [] →
        ((ofText text).snippet p).toList = (line.drop (p - front.length - 30)).take 30 ++ hereMark
          ++ line.drop (p - front.length)
          ++ visible (back.take (p + 20 - (front.length + line.length)))) := by
  obtain ⟨front, line, back, h⟩ := exists_surrounds text hp
  exact ⟨front, line, back, h, marked_snippet h, snippet_overrun h⟩

/-- Six characters in front of the end of a line of 54, with a further line behind it. -/
theorem snippet_of_position_near_end :
    let text := "title: a line that is longer than what a snippet shows\nX"
    48 ≤ (ofText text).length ∧ ∃ front line back, (ofText text).Surrounds 48 front line back
      ∧ ((line.length ≤ 50 ∨ 48 + 20 ≤ front.length + line.length ∨ back = []) →
        Marked line (48 - front.length) ((ofText text).snippet 48).toList)
      ∧ (50 < line.length → front.length + line.length < 48 + 20 → back ≠ [] →
        ((ofText text).snippet 48).toList = (line.drop (48 - front.length - 30)).take 30 ++ hereMark
          ++ line.drop (48 - front.length)
          ++ visible (back.take (48 + 20 - (front.length + line.length)))) :=
  ⟨by decide, snippet_of_position _ 48 (by decide)⟩

/-- There the snippet shows what stands in the line below, which is no piece of the line. -/
theorem snippet_leaves_line :
    let s := ofText "title: a line that is longer than what a snippet shows\nX"
    let line := "title: a line that is longer than what a snippet shows"
    48 ≤ s.length ∧ s.lines[s.lineAt 48]? = some line ∧ s.lineStart? (s.lineAt 48) = some 0
      ∧ ¬Marked line.toList 48 (s.snippet 48).toList := by
  refine ⟨by decide, by decide, by decide, fun h => ?_⟩
  have hx : 'X' ∈ ((ofText "title: a line that is longer than what a snippet shows\nX").snippet
      48).toList := by decide
  exact absurd (h.mem hx) (by decide)

end ConfigScript.Source
