import ConfigScript.Node.Equality
import ConfigScript.Proofs.Node.Keyed
import ConfigScript.Proofs.Node.Path

/-! # Equality up to information

Nodes that agree in everything but the information on them are the same value, with the properties
of objects even in the same order. -/

namespace ConfigScript.Node

mutual

/-- The node without the information that takes no part in equality. -/
def withoutInfo : Node → Node
  | primitive text _ => primitive text {}
  | object name props _ => object name (withoutInfoProperties props) {}
  | list name op items _ => list name op (withoutInfoItems items) {}

def withoutInfoProperties : List (String × Node) → List (String × Node)
  | [] => []
  | (key, v) :: ps => (key, withoutInfo v) :: withoutInfoProperties ps

def withoutInfoItems : List Node → List Node
  | [] => []
  | x :: xs => withoutInfo x :: withoutInfoItems xs

end

theorem withoutInfoProperties_eq (props : List (String × Node)) :
    withoutInfoProperties props = props.map fun p => (p.1, p.2.withoutInfo) := by
  induction props with
  | nil => rfl
  | cons p ps ih => rw [withoutInfoProperties, ih, List.map_cons]

theorem withoutInfoItems_eq (items : List Node) :
    withoutInfoItems items = items.map withoutInfo := by
  induction items with
  | nil => rfl
  | cons x xs ih => rw [withoutInfoItems, ih, List.map_cons]

/-- Nodes that agree in everything but the information on them, with distinct keys. -/
structure Twins (m n : Node) : Prop where
  withoutInfo : n.withoutInfo = m.withoutInfo
  keyed : m.Keyed

theorem length_of_withoutInfoProperties {ps qs : List (String × Node)}
    (h : withoutInfoProperties ps = withoutInfoProperties qs) : ps.length = qs.length := by
  have hlen := congrArg List.length h
  simpa [withoutInfoProperties_eq] using hlen

mutual

theorem same_of_withoutInfo (m n : Node) (hk : n.Keyed) (h : m.withoutInfo = n.withoutInfo) :
    same m n = true := by
  cases m with
  | primitive s i =>
    cases n with
    | primitive t j =>
      simp only [withoutInfo, primitive.injEq] at h
      simp [same, h]
    | object name props j => simp [withoutInfo] at h
    | list name op items j => simp [withoutInfo] at h
  | object name ps i =>
    cases n with
    | primitive t j => simp [withoutInfo] at h
    | object name' qs j =>
      simp only [withoutInfo, object.injEq, and_true] at h
      rw [Keyed] at hk
      have hlen := length_of_withoutInfoProperties h.2
      have hprops := sameProperties_of_withoutInfo ps [] qs hk.1 hk.2 h.2
      rw [List.nil_append] at hprops
      simp [same, h.1, hlen, hprops]
    | list name op items j => simp [withoutInfo] at h
  | list name op xs i =>
    cases n with
    | primitive t j => simp [withoutInfo] at h
    | object name props j => simp [withoutInfo] at h
    | list name' op' ys j =>
      simp only [withoutInfo, list.injEq, and_true] at h
      rw [Keyed] at hk
      have hitems := sameItems_of_withoutInfo xs ys hk h.2.2
      simp [same, h.1, h.2.1, hitems]
  termination_by structural m

theorem sameProperties_of_withoutInfo (ps done qs : List (String × Node))
    (hd : (Properties.keys (done ++ qs)).Nodup) (hk : KeyedProperties qs)
    (h : withoutInfoProperties ps = withoutInfoProperties qs) :
    sameProperties ps (done ++ qs) = true := by
  cases ps with
  | nil => rfl
  | cons p ps =>
    obtain ⟨key, v⟩ := p
    cases qs with
    | nil => simp [withoutInfoProperties] at h
    | cons q qs =>
      obtain ⟨key', w⟩ := q
      simp only [withoutInfoProperties, List.cons.injEq, Prod.mk.injEq] at h
      obtain ⟨⟨rfl, hv⟩, hps⟩ := h
      rw [KeyedProperties] at hk
      have hkey : key ∉ done.map Prod.fst := by
        intro hm
        rw [Properties.keys, List.map_append, List.map_cons] at hd
        exact (List.nodup_append.mp hd).2.2 key hm key List.mem_cons_self rfl
      have hrest := sameProperties_of_withoutInfo ps (done ++ [(key, w)]) qs (by simpa using hd)
        hk.2 hps
      rw [List.append_assoc, List.singleton_append] at hrest
      rw [sameProperties, lookup_append hkey, hrest]
      simp [same_of_withoutInfo v w hk.1 hv]
  termination_by structural ps

theorem sameItems_of_withoutInfo (xs ys : List Node) (hk : KeyedItems ys)
    (h : withoutInfoItems xs = withoutInfoItems ys) : sameItems xs ys = true := by
  cases xs with
  | nil =>
    cases ys with
    | nil => rfl
    | cons y ys => simp [withoutInfoItems] at h
  | cons x xs =>
    cases ys with
    | nil => simp [withoutInfoItems] at h
    | cons y ys =>
      simp only [withoutInfoItems, List.cons.injEq] at h
      rw [KeyedItems] at hk
      rw [sameItems, same_of_withoutInfo x y hk.1 h.1, sameItems_of_withoutInfo xs ys hk.2 h.2]
      rfl
  termination_by structural xs

end

end ConfigScript.Node
