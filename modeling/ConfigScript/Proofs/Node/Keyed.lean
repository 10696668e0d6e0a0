import ConfigScript.Node.Path

/-! # Keyed trees

Each object of a tree has distinct keys, as the map of its properties demands. -/

namespace ConfigScript

namespace Properties

variable {α : Type} {key : String} {ps : List (String × α)}

theorem contains_iff : contains key ps = true ↔ key ∈ keys ps := by
  rw [contains, List.any_eq_true, keys, List.mem_map]
  exact exists_congr fun p => and_congr_right fun _ => beq_iff_eq

theorem contains_eq_false (h : key ∉ keys ps) : contains key ps = false :=
  Bool.eq_false_iff.mpr fun hc => h (contains_iff.mp hc)

theorem put_append (h : key ∉ keys ps) (v : α) : put key v ps = ps ++ [(key, v)] := by
  induction ps with
  | nil => rfl
  | cons p ps ih =>
    obtain ⟨k, w⟩ := p
    simp only [keys, List.map_cons, List.mem_cons, not_or] at h
    rw [put, if_neg (Ne.symm h.1), ih h.2, List.cons_append]

end Properties

namespace Node

mutual

def Keyed : Node → Prop
  | primitive _ _ => True
  | object _ props _ => (Properties.keys props).Nodup ∧ KeyedProperties props
  | list _ _ items _ => KeyedItems items

def KeyedProperties : List (String × Node) → Prop
  | [] => True
  | (_, v) :: ps => v.Keyed ∧ KeyedProperties ps

def KeyedItems : List Node → Prop
  | [] => True
  | x :: xs => x.Keyed ∧ KeyedItems xs

end

theorem keyedItems_iff {xs : List Node} : KeyedItems xs ↔ ∀ x ∈ xs, x.Keyed := by
  induction xs with
  | nil => simp [KeyedItems]
  | cons x xs ih => rw [KeyedItems, ih, List.forall_mem_cons]

theorem keyedProperties_iff {ps : List (String × Node)} :
    KeyedProperties ps ↔ ∀ p ∈ ps, p.2.Keyed := by
  induction ps with
  | nil => simp [KeyedProperties]
  | cons p ps ih => rw [KeyedProperties, ih, List.forall_mem_cons]

theorem keyed_of_mem_properties {props : List (String × Node)} (h : KeyedProperties props)
    {p : String × Node} (hp : p ∈ props) : p.2.Keyed :=
  keyedProperties_iff.mp h p hp

end Node

end ConfigScript
