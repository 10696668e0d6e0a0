import ConfigScript.Node.Path

/-! # Paths and the places they lead to

What a path leads to can be replaced, and what happens below one child of a node happens to that
child alone. The paths of a subtree are those of its own nodes behind the steps that lead to it. -/

namespace ConfigScript

/-! ## Places below a child -/

theorem Properties.modify?_isSome {α : Type} {key : String} {f : α → Option α}
    {ps : List (String × α)} {v w : α} (hv : Properties.get? key ps = some v) (hw : f v = some w) :
    ∃ qs, Properties.modify? key f ps = some qs := by
  induction ps with
  | nil => simp [Properties.get?] at hv
  | cons p ps ih =>
    obtain ⟨k, u⟩ := p
    rw [Properties.modify?]
    simp only [Properties.get?, List.lookup_cons] at hv
    split
    · rename_i hk
      subst hk
      simp only [beq_self_eq_true, Option.some.injEq] at hv
      subst hv
      exact ⟨_, by rw [hw]; rfl⟩
    · rename_i hk
      have hne : (key == k) = false := by simpa using fun h => hk h.symm
      simp only [hne] at hv
      obtain ⟨qs, hq⟩ := ih hv
      exact ⟨_, by rw [hq]; rfl⟩

theorem modifyItem?_isSome {f : Node → Option Node} {k : Nat} {xs : List Node} {v w : Node}
    (hv : xs[k]? = some v) (hw : f v = some w) : ∃ ys, modifyItem? f k xs = some ys := by
  induction xs generalizing k with
  | nil => simp at hv
  | cons x xs ih =>
    cases k with
    | zero =>
      simp only [List.getElem?_cons_zero, Option.some.injEq] at hv
      subst hv
      exact ⟨_, by rw [modifyItem?, hw]; rfl⟩
    | succ k =>
      obtain ⟨ys, hy⟩ := ih (by simpa using hv)
      exact ⟨_, by rw [modifyItem?, hy]; rfl⟩

namespace Node

theorem replace?_of_get? {n slot : Node} {path : Path} (h : n.get? path = some slot) (new : Node) :
    ∃ m, n.replace? path new = some m := by
  induction path generalizing n with
  | nil => exact ⟨new, rfl⟩
  | cons step path ih =>
    obtain ⟨c, hc, hp⟩ := Option.bind_eq_some_iff.mp h
    obtain ⟨m, hm⟩ := ih hp
    cases step with
    | property key =>
      cases n with
      | object name props i =>
        obtain ⟨qs, hq⟩ := Properties.modify?_isSome hc hm
        exact ⟨.object name qs i, by rw [replace?, modify?, hq]; rfl⟩
      | primitive text i => simp [child?] at hc
      | list name op items i => simp [child?] at hc
    | index k =>
      cases n with
      | list name op items i =>
        obtain ⟨ys, hy⟩ := modifyItem?_isSome hc hm
        exact ⟨.list name op ys i, by rw [replace?, modify?, hy]; rfl⟩
      | primitive text i => simp [child?] at hc
      | object name props i => simp [child?] at hc

/-- A node with a hole at the end of a step: what lies behind the step is what lies in the node
that is plugged in. -/
structure Hole (step : Step) (plug : Node → Node) : Prop where
  get : ∀ c path, (plug c).get? (step :: path) = c.get? path
  replace : ∀ c path new, (plug c).replace? (step :: path) new = (c.replace? path new).map plug

theorem modifyItem?_append (f : Node → Option Node) (done rest : List Node) (x : Node) :
    modifyItem? f done.length (done ++ x :: rest) = (f x).map fun y => done ++ y :: rest := by
  induction done with
  | nil => rfl
  | cons d ds ih =>
    rw [List.cons_append, List.length_cons, modifyItem?, ih, Option.map_map]
    rfl

theorem hole_index (name : String) (op : Bool) (done rest : List Node) (i : NodeInfo) :
    Hole (.index done.length) fun c => .list name op (done ++ c :: rest) i := by
  constructor
  · intro c path
    simp [get?, child?]
  · intro c path new
    rw [replace?, modify?, modifyItem?_append, Option.map_map]
    rfl

theorem lookup_append {key : String} {done : List (String × Node)} (h : key ∉ done.map Prod.fst)
    (c : Node) (rest : List (String × Node)) :
    Properties.get? key (done ++ (key, c) :: rest) = some c := by
  induction done with
  | nil => simp [Properties.get?]
  | cons d ds ih =>
    obtain ⟨k, v⟩ := d
    simp only [List.map_cons, List.mem_cons, not_or] at h
    have hne : (key == k) = false := by simpa using h.1
    rw [Properties.get?, List.cons_append, List.lookup_cons, hne]
    exact ih h.2

theorem modifyProperty?_append {key : String} {done : List (String × Node)}
    (h : key ∉ done.map Prod.fst) (f : Node → Option Node) (c : Node)
    (rest : List (String × Node)) :
    Properties.modify? key f (done ++ (key, c) :: rest)
      = (f c).map fun d => done ++ (key, d) :: rest := by
  induction done with
  | nil =>
    rw [List.nil_append, Properties.modify?, if_pos rfl]
    rfl
  | cons d ds ih =>
    obtain ⟨k, v⟩ := d
    simp only [List.map_cons, List.mem_cons, not_or] at h
    rw [List.cons_append, Properties.modify?, if_neg (Ne.symm h.1), ih h.2, Option.map_map]
    rfl

theorem hole_property (name : String) {key : String} {done : List (String × Node)}
    (h : key ∉ done.map Prod.fst) (rest : List (String × Node)) (i : NodeInfo) :
    Hole (.property key) fun c => .object name (done ++ (key, c) :: rest) i := by
  constructor
  · intro c path
    rw [get?, child?, lookup_append h, Option.bind_some]
  · intro c path new
    rw [replace?, modify?, modifyProperty?_append h, Option.map_map]
    rfl

/-! ## Post-order -/

/-- Nodes with their paths, seen from further up. -/
def seenFrom (path : Path) (nodes : List (Path × Node)) : List (Path × Node) :=
  nodes.map fun p => (path ++ p.1, p.2)

theorem seenFrom_append (path : Path) (xs ys : List (Path × Node)) :
    seenFrom path (xs ++ ys) = seenFrom path xs ++ seenFrom path ys := List.map_append

theorem seenFrom_seenFrom (p q : Path) (xs : List (Path × Node)) :
    seenFrom p (seenFrom q xs) = seenFrom (p ++ q) xs := by
  simp [seenFrom]

mutual

theorem postOrderFrom_eq (path : Path) (n : Node) :
    postOrderFrom path n = seenFrom path.reverse (postOrderFrom [] n) := by
  cases n with
  | primitive text i => simp [postOrderFrom, seenFrom]
  | object name props i =>
    rw [postOrderFrom, postOrderFrom, seenFrom_append, postOrderProperties_eq path props]
    simp [seenFrom]
  | list name op items i =>
    rw [postOrderFrom, postOrderFrom, seenFrom_append, postOrderItems_eq path 0 items]
    simp [seenFrom]

theorem postOrderProperties_eq (path : Path) (ps : List (String × Node)) :
    postOrderProperties path ps = seenFrom path.reverse (postOrderProperties [] ps) := by
  cases ps with
  | nil => rfl
  | cons p ps =>
    obtain ⟨key, v⟩ := p
    rw [postOrderProperties, postOrderProperties, seenFrom_append, postOrderProperties_eq path ps,
      postOrderFrom_eq (.property key :: path) v, postOrderFrom_eq [.property key] v,
      seenFrom_seenFrom,
      List.reverse_cons, List.reverse_singleton]

theorem postOrderItems_eq (path : Path) (k : Nat) (xs : List Node) :
    postOrderItems path k xs = seenFrom path.reverse (postOrderItems [] k xs) := by
  cases xs with
  | nil => rfl
  | cons x xs =>
    rw [postOrderItems, postOrderItems, seenFrom_append, postOrderItems_eq path (k + 1) xs,
      postOrderFrom_eq (.index k :: path) x, postOrderFrom_eq [.index k] x, seenFrom_seenFrom,
      List.reverse_cons, List.reverse_singleton]

end

end Node

end ConfigScript
