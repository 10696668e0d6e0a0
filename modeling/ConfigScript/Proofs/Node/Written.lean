import ConfigScript.Macro.Template
import ConfigScript.Node.Printer
import ConfigScript.Proofs.Node.Equality
import ConfigScript.Proofs.Text.Literal

/-! # The text of a node, character by character

A collection is its name, if it has one, and its entries between brackets, with commas between
them. The reader takes parentheses around one value for that value, so that an unnamed operation
with one element has no text of its own. -/

namespace ConfigScript.Node

open ConfigScript.Text

mutual

/-- No unnamed operation in the tree has exactly one element. -/
def Ungrouped : Node → Prop
  | primitive _ _ => True
  | object _ props _ => UngroupedProperties props
  | list name op items _ => ¬(name = "" ∧ op = true ∧ items.length = 1) ∧ UngroupedItems items

def UngroupedProperties : List (String × Node) → Prop
  | [] => True
  | (_, v) :: ps => v.Ungrouped ∧ UngroupedProperties ps

def UngroupedItems : List Node → Prop
  | [] => True
  | x :: xs => x.Ungrouped ∧ UngroupedItems xs

end

theorem ungrouped_of_mem_properties {props : List (String × Node)} (h : UngroupedProperties props)
    {p : String × Node} (hp : p ∈ props) : p.2.Ungrouped := by
  induction props with
  | nil => simp at hp
  | cons q qs ih =>
    rw [UngroupedProperties] at h
    rcases List.mem_cons.mp hp with rfl | hp
    · exact h.1
    · exact ih h.2 hp

theorem ungrouped_of_mem {items : List Node} (h : UngroupedItems items) {x : Node}
    (hx : x ∈ items) : x.Ungrouped := by
  induction items with
  | nil => simp at hx
  | cons y ys ih =>
    rw [UngroupedItems] at h
    rcases List.mem_cons.mp hx with rfl | hx
    · exact h.1
    · exact ih h.2 hx

/-! ## Characters -/

def chars (n : Node) : List Char := n.text.toList

/-- The characters of a property. -/
def propertyChars (p : String × Node) : List Char := (writeName p.1).toList ++ ':' :: p.2.chars

/-- The characters of entries with commas between them. -/
def entryChars (entries : List (List Char)) : List Char := List.intercalate [','] entries

theorem textProperties_eq (props : List (String × Node)) :
    textProperties props = props.map fun p => writeName p.1 ++ ":" ++ p.2.text := by
  induction props with
  | nil => rfl
  | cons p ps ih => rw [textProperties, ih, List.map_cons]

theorem textItems_eq (items : List Node) : textItems items = items.map text := by
  induction items with
  | nil => rfl
  | cons x xs ih => rw [textItems, ih, List.map_cons]

theorem chars_primitive (s : String) (i : NodeInfo) :
    (primitive s i).chars = (writeValue s).toList := by
  rw [chars, text]

theorem chars_object (name : String) (props : List (String × Node)) (i : NodeInfo) :
    (object name props i).chars = (writeOptionalName name).toList
      ++ '{' :: (entryChars (props.map propertyChars) ++ ['}']) := by
  simp [chars, text, textProperties_eq, entryChars, String.toList_append,
    String.toList_intercalate, Function.comp_def]
  rfl

theorem chars_list (name : String) (op : Bool) (items : List Node) (i : NodeInfo) :
    (list name op items i).chars = (writeOptionalName name).toList
      ++ (if op then '(' else '[')
        :: (entryChars (items.map chars) ++ [if op then ')' else ']']) := by
  cases op with
  | true =>
    simp [chars, text, textItems_eq, entryChars, String.toList_append, String.toList_intercalate,
      Function.comp_def]
    rfl
  | false =>
    simp [chars, text, textItems_eq, entryChars, String.toList_append, String.toList_intercalate,
      Function.comp_def]
    rfl

theorem written_writeOptionalName {name : String} (h : name ≠ "") :
    Written name (writeOptionalName name).toList := by
  rw [writeOptionalName, if_neg (by simpa using h)]
  exact written_writeName name

theorem entryChars_cons_cons (e f : List Char) (es : List (List Char)) :
    entryChars (e :: f :: es) = e ++ ',' :: entryChars (f :: es) := by
  simp [entryChars]

theorem entryChars_singleton (e : List Char) : entryChars [e] = e := by
  simp [entryChars]

/-! ## Lengths -/

theorem length_le_entryChars {e : List Char} {es : List (List Char)} (h : e ∈ es) :
    e.length ≤ (entryChars es).length := by
  induction es with
  | nil => simp at h
  | cons f es ih =>
    cases es with
    | nil =>
      exact Nat.le_of_eq (by rw [List.mem_singleton.mp h, entryChars_singleton])
    | cons g es =>
      rw [entryChars_cons_cons, List.length_append, List.length_cons]
      rcases List.mem_cons.mp h with rfl | h
      · omega
      · have := ih h
        omega

theorem count_le_entryChars (es : List (List Char)) : es.length ≤ (entryChars es).length + 1 := by
  induction es with
  | nil => simp
  | cons e es ih =>
    cases es with
    | nil => simp
    | cons f es =>
      simp only [entryChars_cons_cons, List.length_append, List.length_cons] at ih ⊢
      omega

/-! ## Line breaks -/

theorem mem_entryChars {c : Char} {es : List (List Char)} (h : c ∈ entryChars es) :
    c = ',' ∨ ∃ e ∈ es, c ∈ e := by
  induction es with
  | nil => simp [entryChars] at h
  | cons e es ih =>
    cases es with
    | nil =>
      rw [entryChars_singleton] at h
      exact .inr ⟨e, List.mem_singleton_self e, h⟩
    | cons f es =>
      rw [entryChars_cons_cons, List.mem_append, List.mem_cons] at h
      rcases h with h | h | h
      · exact .inr ⟨e, List.mem_cons_self, h⟩
      · exact .inl h
      · rcases ih h with hc | ⟨g, hg, hc⟩
        · exact .inl hc
        · exact .inr ⟨g, List.mem_cons_of_mem e hg, hc⟩

theorem inLine_writeOptionalName {name : String} {c : Char}
    (h : c ∈ (writeOptionalName name).toList) : InLine c := by
  by_cases hn : name = ""
  · simp [writeOptionalName, hn] at h
  · exact (written_writeOptionalName hn).inLine h

mutual

theorem inLine_chars (n : Node) {c : Char} (h : c ∈ n.chars) : InLine c := by
  cases n with
  | primitive s i =>
    rw [chars_primitive] at h
    exact (written_writeValue s).inLine h
  | object name props i =>
    rw [chars_object] at h
    simp only [List.mem_append, List.mem_cons, List.not_mem_nil, or_false] at h
    rcases h with h | rfl | h | rfl
    · exact inLine_writeOptionalName h
    · simp [InLine]
    · rcases mem_entryChars h with rfl | ⟨e, he, hc⟩
      · simp [InLine]
      · exact inLine_propertyChars props he hc
    · simp [InLine]
  | list name op items i =>
    rw [chars_list] at h
    simp only [List.mem_append, List.mem_cons, List.not_mem_nil, or_false] at h
    rcases h with h | rfl | h | rfl
    · exact inLine_writeOptionalName h
    · cases op <;> simp [InLine]
    · rcases mem_entryChars h with rfl | ⟨e, he, hc⟩
      · simp [InLine]
      · exact inLine_itemChars items he hc
    · cases op <;> simp [InLine]

theorem inLine_propertyChars (props : List (String × Node)) {e : List Char}
    (he : e ∈ props.map propertyChars) {c : Char} (h : c ∈ e) : InLine c := by
  cases props with
  | nil => simp at he
  | cons p ps =>
    obtain ⟨key, v⟩ := p
    rcases List.mem_cons.mp he with rfl | he
    · simp only [propertyChars, List.mem_append, List.mem_cons] at h
      rcases h with h | rfl | h
      · exact (written_writeName key).inLine h
      · simp [InLine]
      · exact inLine_chars v h
    · exact inLine_propertyChars ps he h

theorem inLine_itemChars (items : List Node) {e : List Char} (he : e ∈ items.map chars) {c : Char}
    (h : c ∈ e) : InLine c := by
  cases items with
  | nil => simp at he
  | cons x xs =>
    rcases List.mem_cons.mp he with rfl | he
    · exact inLine_chars x h
    · exact inLine_itemChars xs he h

end

end ConfigScript.Node
