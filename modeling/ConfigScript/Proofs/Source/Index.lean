import ConfigScript.Proofs.Source.Lines

/-! # Positions and lines

The lines of a source and the positions of its text determine each other: a position lies in one
line alone, and the break that ends a line is the last position of that line. Wherever one position
is taken from another, the first is not the larger one. -/

namespace ConfigScript.Source

variable {s : Source} {p q L : Nat} {before after : List String} {l : String}

/-! ## Normal text -/

theorem splitLines_feeds (cs line : List Char) :
    splitLines (feeds cs) line = splitLines cs line := by
  fun_induction splitLines cs line with
  | case1 line => rfl
  | case2 cs line ih => rw [feeds, splitLines, ih]
  | case3 cs line hn ih => rw [feeds.eq_3 cs hn, splitLines, ih]
  | case4 cs line ih => rw [feeds, splitLines, ih] <;> simp
  | case5 c cs line hrn hr hn ih =>
    rw [feeds.eq_4 c cs hrn hr, splitLines.eq_5, ih]
    all_goals simp_all

theorem ofText_text (text : String) : ofText (ofText text).text = ofText text := by
  rw [Source.text, chars_ofText_eq_feeds, ofText, String.toList_ofList, splitLines_feeds]
  rfl

theorem text_eq_intercalate (s : Source) : s.text = String.intercalate "\n" s.lines := by
  rw [← String.toList_inj, Source.text, String.toList_ofList, String.toList_intercalate]
  rfl

theorem byteOffset_eq (s : Source) (p : Nat) :
    s.byteOffset p = (String.ofList (s.text.toList.take p)).utf8ByteSize := by
  have hsum (cs : List Char) (n : Nat) :
      cs.foldl (fun n c => n + c.utf8Size) n = n + (String.ofList cs).utf8ByteSize := by
    induction cs generalizing n with
    | nil => simp
    | cons c cs ih =>
      rw [List.foldl_cons, ih, String.ofList_cons, String.utf8ByteSize_append,
        String.utf8ByteSize_singleton, Nat.add_assoc]
  rw [byteOffset, hsum, Nat.zero_add, Source.text, String.toList_ofList]

/-! ## Lines by their number -/

theorem length_starts (h : s.lines ≠ []) : s.lineCount = s.lines.length := by
  rw [lineCount, starts, if_neg (by simpa using h), length_startsFrom]

theorem exists_split (h : s.lines ≠ []) (hL : L < s.lineCount) :
    ∃ before l after, s.lines = before ++ l :: after ∧ before.length = L := by
  rw [length_starts h] at hL
  refine ⟨s.lines.take L, s.lines[L], s.lines.drop (L + 1), ?_, ?_⟩
  · rw [List.getElem_cons_drop, List.take_append_drop]
  · rw [List.length_take, Nat.min_eq_left (Nat.le_of_lt hL)]

theorem lt_of_mem_startsFrom {r : Nat} {ls : List String} (h : r ∈ startsFrom q ls) :
    r < q + (charsBefore ls).length := by
  induction ls generalizing q with
  | nil => simp [startsFrom] at h
  | cons l ls ih =>
    have hlen : (charsBefore (l :: ls)).length = l.toList.length + 1 + (charsBefore ls).length := by
      rw [charsBefore, List.flatMap_cons, List.length_append, List.length_append]
      rfl
    rcases List.mem_cons.mp h with rfl | h
    · omega
    · have := ih h
      omega

theorem lineAt_eq (h : s.lines = before ++ l :: after) (hle : (charsBefore before).length ≤ p)
    (hlast : after = [] ∨ p ≤ (charsBefore before).length + l.toList.length) :
    s.lineAt p = before.length := by
  have hbefore : (startsFrom 0 before).countP (· ≤ p) = before.length := by
    rw [← length_startsFrom 0 before, List.countP_eq_length]
    intro r hr
    have := lt_of_mem_startsFrom hr
    simp only [decide_eq_true_eq]
    omega
  have hafter : (startsFrom ((charsBefore before).length + l.toList.length + 1) after).countP
      (· ≤ p) = 0 := by
    rcases hlast with rfl | hlast
    · simp [startsFrom]
    · exact countP_startsFrom_eq_zero (by omega) after
  rw [lineAt, starts_eq h, List.countP_append, List.countP_cons, hbefore, hafter]
  simp [hle]

theorem exists_lineAt (h : s.lines ≠ []) (p : Nat) :
    ∃ before l after, s.lines = before ++ l :: after ∧ s.lineAt p = before.length
      ∧ s.starts.countP (· ≤ p) = before.length + 1 ∧ (charsBefore before).length ≤ p
      ∧ (after = [] ∨ p ≤ (charsBefore before).length + l.toList.length) := by
  obtain ⟨before, l, after, hls, hcount, hle, hlast⟩ := exists_line h (Nat.zero_le p)
  rw [Nat.zero_add] at hle hlast
  have hlast' := Decidable.or_iff_not_imp_left.mpr hlast
  refine ⟨before, l, after, hls, lineAt_eq hls hle hlast', ?_, hle, hlast'⟩
  rwa [starts, if_neg (by simpa using h)]

/-! ## The line of a position -/

/-- The line starts at or before the position and does not end before it. -/
def HoldsPosition (s : Source) (L p : Nat) : Prop :=
  ∃ first last, s.lineStart? L = some first ∧ s.lineEnd? L = some last ∧ first ≤ p ∧ p ≤ last

theorem holdsPosition_iff (h : s.lines ≠ []) (hp : p ≤ s.length) :
    s.HoldsPosition L p ↔ L = s.lineAt p := by
  constructor
  · rintro ⟨first, last, hfirst, hlast, hle, hge⟩
    have hL : L < s.lineCount := (List.getElem?_eq_some_iff.mp hfirst).1
    obtain ⟨before, l, after, hls, rfl⟩ := exists_split h hL
    obtain rfl := Option.some.inj ((lineStart?_eq hls).symm.trans hfirst)
    obtain rfl := Option.some.inj ((lineEnd?_eq hls).symm.trans hlast)
    exact (lineAt_eq hls hle (.inr hge)).symm
  · rintro rfl
    obtain ⟨before, l, after, hls, hline, -, hle, hlast⟩ := exists_lineAt h p
    rw [hline]
    refine ⟨_, _, lineStart?_eq hls, lineEnd?_eq hls, hle, ?_⟩
    rcases hlast with rfl | hlast
    · simpa [Source.length, chars_eq hls, charsAfter] using hp
    · exact hlast

theorem lineAt_beyond (h : s.lines ≠ []) (hp : s.length < p) : s.lineAt p + 1 = s.lineCount := by
  obtain ⟨before, l, after, hls, hline, -, -, hlast⟩ := exists_lineAt h p
  have hafter : after = [] := by
    refine hlast.resolve_right fun hle => ?_
    rw [Source.length, chars_eq hls, List.length_append, List.length_append] at hp
    omega
  rw [hline, length_starts h, hls, hafter, List.length_append, List.length_singleton]

/-- What the lines and the positions of a source have to do with each other. -/
structure Coherent (s : Source) : Prop where
  no_return : '\r' ∉ s.text.toList
  joined : s.text = String.intercalate "\n" s.lines
  again : ofText s.text = s
  line_iff : ∀ p ≤ s.length, ∀ L, s.HoldsPosition L p ↔ L = s.lineAt p
  line_beyond : ∀ p, s.length < p → s.lineAt p + 1 = s.lineCount
  /-- The line that is looked up has been found among the starts, so that one less than their
  number is its index. -/
  line_found : ∀ p, s.starts.countP (· ≤ p) = s.lineAt p + 1
  column : ∀ p, ∃ first, s.lineStart? (s.lineAt p) = some first ∧ first ≤ p
    ∧ s.lineColumn p = ⟨s.lineAt p + 1, p - first + 1⟩
  span : ∀ L < s.lineCount, ∃ first last, s.lineStart? L = some first ∧ s.lineEnd? L = some last
    ∧ first ≤ last ∧ last ≤ s.length
  next_start : ∀ L, L + 1 < s.lineCount →
    ∃ last, s.lineEnd? L = some last ∧ s.lineStart? (L + 1) = some (last + 1)
  bytes : ∀ p, s.byteOffset p = (String.ofList (s.text.toList.take p)).utf8ByteSize

/-- Every text has a source whose lines and positions fit together. -/
theorem ofText_coherent (text : String) : (ofText text).Coherent := by
  have h : (ofText text).lines ≠ [] := lines_ofText_ne_nil text
  have hreturn : '\r' ∉ (ofText text).text.toList := by
    rw [Source.text, String.toList_ofList]
    intro hc
    rcases mem_chars_ofText hc with hc | hc
    · exact absurd hc (by decide)
    · exact hc.2 rfl
  refine ⟨hreturn, text_eq_intercalate _, ofText_text text, fun p hp L => holdsPosition_iff h hp,
    fun p hp => lineAt_beyond h hp, fun p => ?_, fun p => ?_, fun L hL => ?_, fun L hL => ?_,
    byteOffset_eq _⟩
  · obtain ⟨before, l, after, hls, hline, hcount, -⟩ := exists_lineAt h p
    rw [hcount, hline]
  · obtain ⟨before, l, after, hls, hline, -, hle, -⟩ := exists_lineAt h p
    have hstart : (ofText text).lineStart? ((ofText text).lineAt p)
        = some (charsBefore before).length := by rw [hline, lineStart?_eq hls]
    refine ⟨_, hstart, hle, ?_⟩
    rw [lineColumn, hstart]
    rfl
  · obtain ⟨before, l, after, hls, rfl⟩ := exists_split h hL
    refine ⟨_, _, lineStart?_eq hls, lineEnd?_eq hls, Nat.le_add_right _ _, ?_⟩
    rw [Source.length, chars_eq hls, List.length_append, List.length_append]
    omega
  · obtain ⟨before, l, after, hls, rfl⟩ := exists_split h (Nat.lt_of_succ_lt hL)
    refine ⟨_, lineEnd?_eq hls, ?_⟩
    cases after with
    | nil =>
      rw [length_starts h, hls, List.length_append, List.length_singleton] at hL
      omega
    | cons m after =>
      have hnext : (ofText text).lines = (before ++ [l]) ++ m :: after := by simp [hls]
      have hstart := lineStart?_eq hnext
      rw [List.length_append, List.length_singleton] at hstart
      rw [hstart]
      simp [charsBefore]
      omega

end ConfigScript.Source
