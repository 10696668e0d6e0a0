import ConfigScript.Proofs.Text.Literal
import ConfigScript.Source

/-! # Lines of a source

The text of a source is, for each of its lines, what stands in front of the line, the line, and what
stands behind it. A position lies in one line, counted from its first character up to the place
right behind its last. -/

namespace ConfigScript.Source

open Text

variable {s : Source} {p : Nat}

/-! ## Splitting -/

theorem splitLines_ne_nil (cs line : List Char) : splitLines cs line ≠ [] := by
  fun_induction splitLines cs line with
  | case1 line => simp
  | case2 cs line ih => simp
  | case3 cs line _ ih => simp
  | case4 cs line ih => simp
  | case5 c cs line _ _ _ ih => exact ih

theorem inLine_splitLines {cs line : List Char} (hline : ∀ c ∈ line, InLine c) :
    ∀ l ∈ splitLines cs line, ∀ c ∈ l, InLine c := by
  fun_induction splitLines cs line with
  | case1 line => simpa using hline
  | case2 cs line ih => simpa using ⟨hline, ih (by simp)⟩
  | case3 cs line _ ih => simpa using ⟨hline, ih (by simp)⟩
  | case4 cs line ih => simpa using ⟨hline, ih (by simp)⟩
  | case5 c cs line _ hr hn ih => exact ih (by simpa using ⟨⟨hn, hr⟩, hline⟩)

/-- The text with a line feed for each line break. -/
def feeds : List Char → List Char
  | [] => []
  | '\r' :: '\n' :: cs => '\n' :: feeds cs
  | '\r' :: cs => '\n' :: feeds cs
  | c :: cs => c :: feeds cs

theorem intercalate_splitLines (cs line : List Char) :
    List.intercalate ['\n'] (splitLines cs line) = line.reverse ++ feeds cs := by
  fun_induction splitLines cs line with
  | case1 line => simp [feeds]
  | case2 cs line ih =>
    rw [List.intercalate_cons_of_ne_nil (splitLines_ne_nil cs []), ih]
    simp [feeds]
  | case3 cs line hn ih =>
    rw [List.intercalate_cons_of_ne_nil (splitLines_ne_nil cs []), ih, feeds.eq_3 cs hn]
    simp
  | case4 cs line ih =>
    rw [List.intercalate_cons_of_ne_nil (splitLines_ne_nil cs []), ih]
    simp [feeds]
  | case5 c cs line hrn hr hn ih =>
    rw [ih, feeds.eq_4 c cs hrn hr]
    simp

theorem chars_ofText_eq_feeds (text : String) : (ofText text).chars = feeds text.toList := by
  simpa [ofText, Source.chars, Function.comp_def] using intercalate_splitLines text.toList []

theorem feeds_of_not_mem {cs : List Char} (h : '\r' ∉ cs) : feeds cs = cs := by
  fun_induction feeds cs with
  | case1 => rfl
  | case2 cs ih => simp at h
  | case3 cs _ ih => simp at h
  | case4 c cs _ _ ih => rw [ih fun hm => h (List.mem_cons_of_mem c hm)]

theorem mem_feeds {c : Char} {cs : List Char} (hc : c ∈ feeds cs) :
    c = '\n' ∨ c ∈ cs ∧ c ≠ '\r' := by
  fun_induction feeds cs with
  | case1 => simp at hc
  | case2 cs ih =>
    rcases List.mem_cons.mp hc with hc | hc
    · exact .inl hc
    · exact (ih hc).imp_right fun h => ⟨by simp [h.1], h.2⟩
  | case3 cs _ ih =>
    rcases List.mem_cons.mp hc with hc | hc
    · exact .inl hc
    · exact (ih hc).imp_right fun h => ⟨List.mem_cons_of_mem _ h.1, h.2⟩
  | case4 d cs _ hr ih =>
    rcases List.mem_cons.mp hc with rfl | hc
    · exact .inr ⟨List.mem_cons_self, hr⟩
    · exact (ih hc).imp_right fun h => ⟨List.mem_cons_of_mem _ h.1, h.2⟩

theorem mem_chars_ofText {c : Char} {text : String} (hc : c ∈ (ofText text).chars) :
    c = '\n' ∨ c ∈ text.toList ∧ c ≠ '\r' :=
  mem_feeds (chars_ofText_eq_feeds text ▸ hc)

theorem lines_ofText_ne_nil (text : String) : (ofText text).lines ≠ [] := by
  simpa [ofText] using splitLines_ne_nil text.toList []

theorem inLine_of_mem_lines {text l : String} (h : l ∈ (ofText text).lines) {c : Char}
    (hc : c ∈ l.toList) : InLine c := by
  obtain ⟨cs, hcs, rfl⟩ := List.mem_map.mp h
  rw [String.toList_ofList] at hc
  exact inLine_splitLines (by simp) cs hcs c hc

/-! ## Around a line -/

/-- The characters of the lines in front of a line. -/
def charsBefore (ls : List String) : List Char := ls.flatMap fun l => l.toList ++ ['\n']

/-- The characters of the lines behind a line. -/
def charsAfter (ls : List String) : List Char := ls.flatMap fun l => '\n' :: l.toList

theorem intercalate_lines (before : List String) (l : String) (after : List String) :
    List.intercalate ['\n'] ((before ++ l :: after).map String.toList)
      = charsBefore before ++ l.toList ++ charsAfter after := by
  have hafter (l : String) (after : List String) :
      List.intercalate ['\n'] ((l :: after).map String.toList) = l.toList ++ charsAfter after := by
    induction after generalizing l with
    | nil => simp [charsAfter]
    | cons m after ih =>
      rw [List.map_cons, List.intercalate_cons_of_ne_nil (by simp), ih m]
      simp [charsAfter]
  induction before with
  | nil => simpa [charsBefore] using hafter l after
  | cons m before ih =>
    rw [List.cons_append, List.map_cons, List.intercalate_cons_of_ne_nil (by simp), ih]
    simp [charsBefore]

theorem length_startsFrom (q : Nat) (ls : List String) : (startsFrom q ls).length = ls.length := by
  induction ls generalizing q with
  | nil => rfl
  | cons l ls ih => rw [startsFrom, List.length_cons, ih, List.length_cons]

theorem startsFrom_append (q : Nat) (before after : List String) :
    startsFrom q (before ++ after)
      = startsFrom q before ++ startsFrom (q + (charsBefore before).length) after := by
  induction before generalizing q with
  | nil => simp [charsBefore, startsFrom]
  | cons l before ih =>
    have hq : q + l.toList.length + 1 + (charsBefore before).length
        = q + (charsBefore (l :: before)).length := by
      simp only [charsBefore, List.flatMap_cons, List.length_append, List.length_singleton]
      omega
    rw [List.cons_append, startsFrom, ih, hq, startsFrom, List.cons_append]

theorem le_of_mem_startsFrom {q r : Nat} {ls : List String} (h : r ∈ startsFrom q ls) : q ≤ r := by
  induction ls generalizing q with
  | nil => simp [startsFrom] at h
  | cons l ls ih =>
    rcases List.mem_cons.mp h with rfl | h
    · exact Nat.le_refl _
    · have := ih h
      omega

theorem countP_startsFrom_eq_zero {q : Nat} (h : p < q) (ls : List String) :
    (startsFrom q ls).countP (· ≤ p) = 0 := by
  rw [List.countP_eq_zero]
  intro r hr
  have := le_of_mem_startsFrom hr
  simp only [decide_eq_true_eq]
  omega

theorem exists_line {ls : List String} (hne : ls ≠ []) {q : Nat} (hq : q ≤ p) :
    ∃ before l after, ls = before ++ l :: after
      ∧ (startsFrom q ls).countP (· ≤ p) = before.length + 1
      ∧ q + (charsBefore before).length ≤ p
      ∧ (after ≠ [] → p ≤ q + (charsBefore before).length + l.toList.length) := by
  induction ls generalizing q with
  | nil => exact absurd rfl hne
  | cons l ls ih =>
    by_cases hnext : ls ≠ [] ∧ q + l.toList.length + 1 ≤ p
    · obtain ⟨before, m, after, rfl, hcount, hle, hlast⟩ := ih hnext.1 hnext.2
      have hlen : q + (charsBefore (l :: before)).length
          = q + l.toList.length + 1 + (charsBefore before).length := by
        simp only [charsBefore, List.flatMap_cons, List.length_append, List.length_singleton]
        omega
      refine ⟨l :: before, m, after, rfl, ?_, by omega, fun h => by have := hlast h; omega⟩
      rw [startsFrom, List.countP_cons, hcount]
      simp [hq]
    · have hcount : (startsFrom (q + l.toList.length + 1) ls).countP (· ≤ p) = 0 := by
        by_cases hls : ls = []
        · simp [hls, startsFrom]
        · have hlt : ¬q + l.toList.length + 1 ≤ p := fun h => hnext ⟨hls, h⟩
          exact countP_startsFrom_eq_zero (by omega) ls
      refine ⟨[], l, ls, rfl, ?_, hq, fun hls => ?_⟩
      · rw [startsFrom, List.countP_cons, hcount]
        simp [hq]
      · have hlt : ¬q + l.toList.length + 1 ≤ p := fun h => hnext ⟨hls, h⟩
        simp only [charsBefore, List.flatMap_nil, List.length_nil, Nat.add_zero]
        omega

section

variable {before after : List String} {l : String}

theorem starts_eq (h : s.lines = before ++ l :: after) :
    s.starts = startsFrom 0 before ++ (charsBefore before).length
      :: startsFrom ((charsBefore before).length + l.toList.length + 1) after := by
  rw [starts, if_neg (by simp [h]), h, startsFrom_append, startsFrom, Nat.zero_add]

theorem chars_eq (h : s.lines = before ++ l :: after) :
    s.chars = charsBefore before ++ l.toList ++ charsAfter after := by
  rw [Source.chars, h, intercalate_lines]

theorem lineStart?_eq (h : s.lines = before ++ l :: after) :
    s.lineStart? before.length = some (charsBefore before).length := by
  rw [lineStart?, starts_eq h,
    List.getElem?_append_right (Nat.le_of_eq (length_startsFrom 0 before))]
  simp [length_startsFrom]

theorem lineEnd?_eq (h : s.lines = before ++ l :: after) :
    s.lineEnd? before.length = some ((charsBefore before).length + l.toList.length) := by
  rw [lineEnd?, lineCount, starts_eq h, List.length_append, length_startsFrom, List.length_cons,
    length_startsFrom]
  cases after with
  | nil => simp [Source.length, chars_eq h, charsAfter]
  | cons m after =>
    rw [if_neg (by simp), List.getElem?_append_right (by rw [length_startsFrom]; omega)]
    simp [length_startsFrom, startsFrom]

end

/-- A position lies in a line, between what stands in front of the line and what stands behind
it. -/
structure Surrounds (s : Source) (p : Nat) (front line back : List Char) : Prop where
  chars : s.chars = front ++ line ++ back
  text : s.lines[s.lineAt p]? = some (String.ofList line)
  start : s.lineStart? (s.lineAt p) = some front.length
  last : s.lineEnd? (s.lineAt p) = some (front.length + line.length)
  start_le : front.length ≤ p
  le_last : p ≤ front.length + line.length
  inLine : ∀ c ∈ line, InLine c
  break_behind : back = [] ∨ ∃ cs, back = '\n' :: cs

theorem exists_surrounds (text : String) (hp : p ≤ (ofText text).length) :
    ∃ front line back, (ofText text).Surrounds p front line back := by
  have hne := lines_ofText_ne_nil text
  have hin : ∀ l ∈ (ofText text).lines, ∀ c ∈ l.toList, InLine c :=
    fun _ hl _ => inLine_of_mem_lines hl
  generalize ofText text = s at hp hne hin
  obtain ⟨before, l, after, hls, hcount, hle, hlast⟩ := exists_line hne (Nat.zero_le p)
  have hchars := chars_eq hls
  have hline : s.lineAt p = before.length := by
    rw [lineAt, starts, if_neg (by simpa using hne), hcount, Nat.add_sub_cancel]
  have hlen : s.length = (charsBefore before).length + l.toList.length
      + (charsAfter after).length := by
    rw [Source.length, hchars, List.length_append, List.length_append]
  refine ⟨charsBefore before, l.toList, charsAfter after, hchars, ?_, ?_, ?_, by omega, ?_,
    hin l (by simp [hls]), ?_⟩
  · rw [hline, hls, String.ofList_toList]
    simp
  · rw [hline, lineStart?_eq hls]
  · rw [hline, lineEnd?_eq hls]
  · cases after with
    | nil =>
      simp only [charsAfter, List.flatMap_nil, List.length_nil, Nat.add_zero] at hlen
      omega
    | cons m after => simpa using hlast (by simp)
  · cases after with
    | nil => exact .inl rfl
    | cons m after => exact .inr ⟨_, rfl⟩

end ConfigScript.Source
