import ConfigScript.Text.Quoted

/-! # Written literals

A text is written bare or between quotes. Bare characters are neither blanks nor marks, and what
stands between quotes holds no line break. -/

namespace ConfigScript.Text

/-- A character of a bare literal. -/
def BareChar (c : Char) : Prop := isBlank c = false ∧ isMark c = false

/-- Characters of a bare literal. -/
def Bare (cs : List Char) : Prop := ∀ c ∈ cs, BareChar c

instance (c : Char) : Decidable (BareChar c) :=
  inferInstanceAs (Decidable (isBlank c = false ∧ isMark c = false))

instance (cs : List Char) : Decidable (Bare cs) := List.decidableBAll BareChar cs

theorem bare_append {cs ds : List Char} : Bare (cs ++ ds) ↔ Bare cs ∧ Bare ds :=
  List.forall_mem_append

/-- The ways to write a text. -/
inductive Written (s : String) : List Char → Prop
  | bare (hne : s.toList ≠ []) (h : ∀ c ∈ s.toList, BareChar c) : Written s s.toList
  | quoted : Written s ('"' :: s.toList.flatMap quoteChar ++ ['"'])

theorem BareChar.ne {c d : Char} (h : BareChar c) (hd : isBlank d = true ∨ isMark d = true) :
    c ≠ d := by
  rintro rfl
  rcases hd with hd | hd
  · simp [h.1] at hd
  · simp [h.2] at hd

theorem bareChar_of_isDigit {c : Char} (h : c.isDigit = true) : BareChar c := by
  have hrange : 48 ≤ c.toNat ∧ c.toNat ≤ 57 := by
    simp only [Char.isDigit, Bool.and_eq_true, decide_eq_true_eq, ge_iff_le,
      UInt32.le_iff_toNat_le] at h
    exact h
  constructor
  · simp only [isBlank, blankRanges, List.any_cons, List.any_nil, Bool.or_false,
      Bool.or_eq_false_iff, Bool.and_eq_false_iff, decide_eq_false_iff_not]
    omega
  · rw [← Bool.not_eq_true]
    intro hm
    simp only [isMark, List.contains_eq_mem, decide_eq_true_eq, List.mem_cons, List.not_mem_nil,
      or_false] at hm
    rcases hm with rfl | rfl | rfl | rfl | rfl | rfl | rfl | rfl | rfl | rfl | rfl | rfl <;>
      exact absurd h (by decide)

theorem written_of_isBareName {s : String} (h : isBareName s = true) : Written s s.toList := by
  simp only [isBareName, Bool.and_eq_true, Bool.not_eq_true', List.all_eq_true] at h
  obtain ⟨hne, hall⟩ := h
  refine .bare (fun he => ?_) fun c hc => hall c hc
  rw [String.toList_eq_nil_iff] at he
  subst he
  simp at hne

theorem toList_quote (s : String) : (quote s).toList = '"' :: s.toList.flatMap quoteChar ++ ['"'] :=
  String.toList_ofList

theorem written_writeName (s : String) : Written s (writeName s).toList := by
  unfold writeName
  split
  · exact written_of_isBareName ‹_›
  · rw [toList_quote]
    exact .quoted

theorem written_writeValue (s : String) : Written s (writeValue s).toList := by
  unfold writeValue
  split
  · rename_i h
    simp only [isBareValue, Bool.and_eq_true] at h
    exact written_of_isBareName h.1
  · rw [toList_quote]
    exact .quoted

/-! ## Line breaks -/

/-- A character that ends no line. -/
def InLine (c : Char) : Prop := c ≠ '\n' ∧ c ≠ '\r'

theorem BareChar.inLine {c : Char} (h : BareChar c) : InLine c :=
  ⟨h.ne (.inl (by decide)), h.ne (.inl (by decide))⟩

/-- The characters written with a backslash, each with the letter that stands for it. -/
def escapeLetters : List (Char × Char) :=
  [('"', '"'), ('\\', '\\'), ('\n', 'n'), ('\r', 'r'), ('\t', 't')]

theorem quoteChar_cases (c : Char) :
    (∃ d, (c, d) ∈ escapeLetters ∧ quoteChar c = ['\\', d])
      ∨ quoteChar c = [c] ∧ c ≠ '"' ∧ c ≠ '\\' ∧ InLine c := by
  unfold quoteChar
  split
  · exact .inl ⟨'"', by simp [escapeLetters], rfl⟩
  · exact .inl ⟨'\\', by simp [escapeLetters], rfl⟩
  · exact .inl ⟨'n', by simp [escapeLetters], rfl⟩
  · exact .inl ⟨'r', by simp [escapeLetters], rfl⟩
  · exact .inl ⟨'t', by simp [escapeLetters], rfl⟩
  · rename_i hq hb hn hr _
    exact .inr ⟨rfl, hq, hb, hn, hr⟩

theorem inLine_quoteChar {c d : Char} (h : d ∈ quoteChar c) : InLine d := by
  have hletters : ∀ e ∈ escapeLetters, InLine e.2 := by simp [escapeLetters, InLine]
  rcases quoteChar_cases c with ⟨e, he, hc⟩ | ⟨hc, -, -, hl⟩
  · rw [hc] at h
    rcases List.mem_cons.mp h with rfl | h
    · simp [InLine]
    · rw [List.mem_singleton.mp h]
      exact hletters _ he
  · rw [hc, List.mem_singleton] at h
    rw [h]
    exact hl

theorem Written.inLine {s : String} {cs : List Char} (h : Written s cs) {c : Char} (hc : c ∈ cs) :
    InLine c := by
  cases h with
  | bare _ hb => exact (hb c hc).inLine
  | quoted =>
    simp only [List.cons_append, List.mem_cons, List.mem_append, List.mem_flatMap,
      List.not_mem_nil, or_false] at hc
    rcases hc with rfl | ⟨d, -, hd⟩ | rfl
    · simp [InLine]
    · exact inLine_quoteChar hd
    · simp [InLine]

end ConfigScript.Text
