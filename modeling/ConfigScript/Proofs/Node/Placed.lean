import ConfigScript.Node.Marks
import ConfigScript.Node.Path

/-! # Where the parts of a value stand

The positions that a tree carries. What is built from trees, or cut out of one, carries no others,
and nothing that is done to a template adds one. -/

namespace ConfigScript

namespace Node

mutual

/-- The positions of a node and of all nodes below it. -/
def places : Node → List Nat
  | primitive _ i => i.position.toList
  | object _ props i => i.position.toList ++ placesOfProperties props
  | list _ _ items i => i.position.toList ++ placesOfItems items

def placesOfProperties : List (String × Node) → List Nat
  | [] => []
  | (_, v) :: ps => places v ++ placesOfProperties ps

def placesOfItems : List Node → List Nat
  | [] => []
  | x :: xs => places x ++ placesOfItems xs

end

/-- All positions in the tree have a property. -/
def Placed (A : Nat → Prop) (n : Node) : Prop := ∀ p ∈ n.places, A p

variable {A : Nat → Prop}

theorem mem_placesOfProperties {p : Nat} {props : List (String × Node)} :
    p ∈ placesOfProperties props ↔ ∃ q ∈ props, p ∈ q.2.places := by
  induction props with
  | nil => simp [placesOfProperties]
  | cons q props ih =>
    obtain ⟨key, v⟩ := q
    simp [placesOfProperties, ih]

theorem mem_placesOfItems {p : Nat} {items : List Node} :
    p ∈ placesOfItems items ↔ ∃ x ∈ items, p ∈ x.places := by
  induction items with
  | nil => simp [placesOfItems]
  | cons x items ih => simp [placesOfItems, ih]

/-- All positions in a sequence of trees have a property. -/
def ItemsPlaced (A : Nat → Prop) (items : List Node) : Prop := ∀ x ∈ items, x.Placed A

/-- All positions in the values of a map have a property. -/
def PropertiesPlaced (A : Nat → Prop) (props : List (String × Node)) : Prop :=
  ∀ q ∈ props, q.2.Placed A

theorem itemsPlaced_nil : ItemsPlaced A [] := by simp [ItemsPlaced]

theorem itemsPlaced_singleton {a : Node} (ha : a.Placed A) : ItemsPlaced A [a] := by
  simpa [ItemsPlaced] using ha

theorem itemsPlaced_pair {a b : Node} (ha : a.Placed A) (hb : b.Placed A) :
    ItemsPlaced A [a, b] := by
  simpa [ItemsPlaced] using ⟨ha, hb⟩

theorem ItemsPlaced.append {xs ys : List Node} (hx : ItemsPlaced A xs) (hy : ItemsPlaced A ys) :
    ItemsPlaced A (xs ++ ys) :=
  List.forall_mem_append.mpr ⟨hx, hy⟩

theorem propertiesPlaced_nil : PropertiesPlaced A [] := by simp [PropertiesPlaced]

theorem placed_true (n : Node) : n.Placed fun _ => True := fun _ _ => trivial

theorem placed_primitive {text : String} {i : NodeInfo} :
    (primitive text i).Placed A ↔ ∀ p ∈ i.position, A p := by
  simp [Placed, places]

theorem placed_object {name : String} {props : List (String × Node)} {i : NodeInfo} :
    (object name props i).Placed A ↔ (∀ p ∈ i.position, A p) ∧ PropertiesPlaced A props := by
  simp only [PropertiesPlaced, Placed, places, List.mem_append, Option.mem_toList,
    mem_placesOfProperties]
  constructor
  · exact fun h => ⟨fun p hp => h p (.inl hp), fun q hq p hp => h p (.inr ⟨q, hq, hp⟩)⟩
  · rintro ⟨hi, hq⟩ p (hp | ⟨q, hmem, hp⟩)
    · exact hi p hp
    · exact hq q hmem p hp

theorem placed_list {name : String} {op : Bool} {items : List Node} {i : NodeInfo} :
    (list name op items i).Placed A ↔ (∀ p ∈ i.position, A p) ∧ ItemsPlaced A items := by
  simp only [ItemsPlaced, Placed, places, List.mem_append, Option.mem_toList, mem_placesOfItems]
  constructor
  · exact fun h => ⟨fun p hp => h p (.inl hp), fun x hx p hp => h p (.inr ⟨x, hx, hp⟩)⟩
  · rintro ⟨hi, hx⟩ p (hp | ⟨x, hmem, hp⟩)
    · exact hi p hp
    · exact hx x hmem p hp

theorem placed_value (text : String) : (value text).Placed A := by simp [value, placed_primitive]

theorem Placed.position {n : Node} (h : n.Placed A) : ∀ p ∈ n.position, A p := by
  cases n with
  | primitive text i => exact placed_primitive.mp h
  | object name props i => exact (placed_object.mp h).1
  | list name op items i => exact (placed_list.mp h).1

/-! ## Changing what a node carries -/

theorem Placed.setInfo {n : Node} (h : n.Placed A) {i : NodeInfo} (hi : ∀ p ∈ i.position, A p) :
    (n.setInfo i).Placed A := by
  cases n with
  | primitive text j => exact placed_primitive.mpr hi
  | object name props j => exact placed_object.mpr ⟨hi, (placed_object.mp h).2⟩
  | list name op items j => exact placed_list.mpr ⟨hi, (placed_list.mp h).2⟩

theorem Placed.placedAt {n : Node} (h : n.Placed A) {p : Nat} (hp : A p) :
    (n.placedAt p).Placed A :=
  h.setInfo (by simpa using hp)

theorem Placed.setMark {n : Node} (h : n.Placed A) (m : Option Nat) : (n.setMark m).Placed A :=
  h.setInfo h.position

theorem Placed.asMade {n : Node} (h : n.Placed A) : n.asMade.Placed A := h.setInfo h.position

theorem Placed.setName {n : Node} (h : n.Placed A) (name : String) : (n.setName name).Placed A := by
  cases n with
  | primitive text i => exact h
  | object name props i => exact placed_object.mpr (placed_object.mp h)
  | list name op items i => exact placed_list.mpr (placed_list.mp h)

mutual

theorem places_clearMarks (n : Node) : n.clearMarks.places = n.places :=
  match n with
  | primitive _ _ => rfl
  | object _ props _ => by rw [clearMarks, places, places, placesOfProperties_clearMarks props]
  | list _ _ items _ => by rw [clearMarks, places, places, placesOfItems_clearMarks items]

theorem placesOfProperties_clearMarks (props : List (String × Node)) :
    placesOfProperties (clearMarksProperties props) = placesOfProperties props :=
  match props with
  | [] => rfl
  | (key, v) :: ps => by
    rw [clearMarksProperties, placesOfProperties, placesOfProperties, places_clearMarks v,
      placesOfProperties_clearMarks ps]

theorem placesOfItems_clearMarks (items : List Node) :
    placesOfItems (clearMarksItems items) = placesOfItems items :=
  match items with
  | [] => rfl
  | x :: xs => by
    rw [clearMarksItems, placesOfItems, placesOfItems, places_clearMarks x,
      placesOfItems_clearMarks xs]

end

theorem Placed.clearMarks {n : Node} (h : n.Placed A) : n.clearMarks.Placed A := by
  rw [Placed, places_clearMarks]
  exact h

/-! ## Parts of a collection -/

theorem Placed.items? {n : Node} (h : n.Placed A) {items : List Node} (hi : n.items? = some items) :
    ItemsPlaced A items := by
  cases n with
  | list name op xs i =>
    simp only [Node.items?, Option.some.injEq] at hi
    exact hi ▸ (placed_list.mp h).2
  | primitive text i => simp [Node.items?] at hi
  | object name props i => simp [Node.items?] at hi

theorem Placed.properties? {n : Node} (h : n.Placed A) {props : List (String × Node)}
    (hp : n.properties? = some props) : PropertiesPlaced A props := by
  cases n with
  | object name ps i =>
    simp only [Node.properties?, Option.some.injEq] at hp
    exact hp ▸ (placed_object.mp h).2
  | primitive text i => simp [Node.properties?] at hp
  | list name op items i => simp [Node.properties?] at hp

end Node

/-! ## Maps -/

namespace Properties

variable {α : Type} {key : String} {ps : List (String × α)}

theorem mem_of_get? {v : α} (h : get? key ps = some v) : (key, v) ∈ ps := by
  obtain ⟨before, after, rfl, -⟩ := List.lookup_eq_some_iff.mp h
  simp

theorem mem_put {q : String × α} {v : α} (h : q ∈ put key v ps) : q.2 = v ∨ q ∈ ps := by
  induction ps with
  | nil =>
    rw [put, List.mem_singleton] at h
    exact .inl (h ▸ rfl)
  | cons p ps ih =>
    obtain ⟨k, u⟩ := p
    rw [put] at h
    split at h
    · rcases List.mem_cons.mp h with rfl | h
      · exact .inl rfl
      · exact .inr (List.mem_cons_of_mem _ h)
    · rcases List.mem_cons.mp h with rfl | h
      · exact .inr List.mem_cons_self
      · exact (ih h).imp_right (List.mem_cons_of_mem _)

theorem put_placed {A : Nat → Prop} {props : List (String × Node)}
    (hp : Node.PropertiesPlaced A props) {v : Node} (hv : v.Placed A) :
    Node.PropertiesPlaced A (put key v props) := by
  intro q hq
  rcases mem_put hq with he | hq
  · exact he ▸ hv
  · exact hp q hq

theorem mem_modify? {f : α → Option α} {qs : List (String × α)} (h : modify? key f ps = some qs)
    {q : String × α} (hq : q ∈ qs) : q ∈ ps ∨ ∃ p ∈ ps, f p.2 = some q.2 := by
  induction ps generalizing qs with
  | nil => simp [modify?] at h
  | cons p ps ih =>
    obtain ⟨k, u⟩ := p
    rw [modify?] at h
    split at h
    · obtain ⟨w, hw, rfl⟩ := Option.map_eq_some_iff.mp h
      rcases List.mem_cons.mp hq with rfl | hq
      · exact .inr ⟨(k, u), List.mem_cons_self, hw⟩
      · exact .inl (List.mem_cons_of_mem _ hq)
    · obtain ⟨rs, hr, rfl⟩ := Option.map_eq_some_iff.mp h
      rcases List.mem_cons.mp hq with rfl | hq
      · exact .inl List.mem_cons_self
      · rcases ih hr hq with hmem | ⟨p, hp, he⟩
        · exact .inl (List.mem_cons_of_mem _ hmem)
        · exact .inr ⟨p, List.mem_cons_of_mem _ hp, he⟩

end Properties

theorem mem_modifyItem? {f : Node → Option Node} {k : Nat} {xs ys : List Node}
    (h : modifyItem? f k xs = some ys) {y : Node} (hy : y ∈ ys) :
    y ∈ xs ∨ ∃ x ∈ xs, f x = some y := by
  induction xs generalizing k ys with
  | nil => simp [modifyItem?] at h
  | cons x xs ih =>
    cases k with
    | zero =>
      obtain ⟨w, hw, rfl⟩ := Option.map_eq_some_iff.mp h
      rcases List.mem_cons.mp hy with rfl | hy
      · exact .inr ⟨x, List.mem_cons_self, hw⟩
      · exact .inl (List.mem_cons_of_mem _ hy)
    | succ k =>
      obtain ⟨zs, hz, rfl⟩ := Option.map_eq_some_iff.mp h
      rcases List.mem_cons.mp hy with rfl | hy
      · exact .inl List.mem_cons_self
      · rcases ih hz hy with hmem | ⟨w, hw, he⟩
        · exact .inl (List.mem_cons_of_mem _ hmem)
        · exact .inr ⟨w, List.mem_cons_of_mem _ hw, he⟩

/-! ## Paths -/

namespace Node

variable {A : Nat → Prop}

theorem Placed.child? {n c : Node} (h : n.Placed A) {step : Step} (hc : n.child? step = some c) :
    c.Placed A := by
  cases step with
  | property key =>
    cases n with
    | object name props i => exact (placed_object.mp h).2 _ (Properties.mem_of_get? hc)
    | primitive text i => simp [Node.child?] at hc
    | list name op items i => simp [Node.child?] at hc
  | index k =>
    cases n with
    | list name op items i => exact (placed_list.mp h).2 _ (List.mem_of_getElem? hc)
    | primitive text i => simp [Node.child?] at hc
    | object name props i => simp [Node.child?] at hc

theorem Placed.get? {n slot : Node} (h : n.Placed A) {path : Path} (hp : n.get? path = some slot) :
    slot.Placed A := by
  induction path generalizing n with
  | nil =>
    simp only [Node.get?, Option.some.injEq] at hp
    exact hp ▸ h
  | cons step path ih =>
    obtain ⟨c, hc, hp⟩ := Option.bind_eq_some_iff.mp hp
    exact ih (h.child? hc) hp

theorem Placed.modify? {n m : Node} {f : Node → Option Node} (h : n.Placed A)
    (hf : ∀ x y, x.Placed A → f x = some y → y.Placed A) {path : Path}
    (hm : n.modify? f path = some m) : m.Placed A := by
  induction path generalizing n m with
  | nil => exact hf n m h hm
  | cons step path ih =>
    cases step with
    | property key =>
      cases n with
      | object name props i =>
        obtain ⟨hi, hprops⟩ := placed_object.mp h
        obtain ⟨qs, hq, rfl⟩ := Option.map_eq_some_iff.mp hm
        refine placed_object.mpr ⟨hi, fun q hmem => ?_⟩
        rcases Properties.mem_modify? hq hmem with hold | ⟨p, hp, he⟩
        · exact hprops q hold
        · exact ih (hprops p hp) he
      | primitive text i => simp [Node.modify?] at hm
      | list name op items i => simp [Node.modify?] at hm
    | index k =>
      cases n with
      | list name op items i =>
        obtain ⟨hi, hitems⟩ := placed_list.mp h
        obtain ⟨ys, hy, rfl⟩ := Option.map_eq_some_iff.mp hm
        refine placed_list.mpr ⟨hi, fun y hmem => ?_⟩
        rcases mem_modifyItem? hy hmem with hold | ⟨x, hx, he⟩
        · exact hitems y hold
        · exact ih (hitems x hx) he
      | primitive text i => simp [Node.modify?] at hm
      | object name props i => simp [Node.modify?] at hm

theorem Placed.replace {n m new : Node} (h : n.Placed A) (hn : new.Placed A) {path : Path}
    (hm : n.replace path new = .ok m) : m.Placed A := by
  unfold Node.replace at hm
  split at hm
  · rename_i m' he
    simp only [Except.ok.injEq] at hm
    refine hm ▸ h.modify? (fun x y _ hxy => ?_) he
    simp only [Option.some.injEq] at hxy
    exact hxy ▸ hn
  · simp at hm

end Node

end ConfigScript
