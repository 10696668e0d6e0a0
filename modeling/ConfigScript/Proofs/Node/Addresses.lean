import Mathlib.Data.List.Flatten
import ConfigScript.Proofs.Node.Frame

/-! # Paths as addresses

A walk visits each path that leads somewhere once, with the node that it leads to: a place after
all places below it, and the subtrees of a node in the order of its children. A replacement puts a
whole tree at an address, and what stands at the addresses beside it stays. -/

namespace ConfigScript.Node

/-! ## Children -/

/-- The children of a node in order, each with the step that leads to it. -/
def children : Node → List (Step × Node)
  | primitive _ _ => []
  | object _ props _ => props.map fun p => (.property p.1, p.2)
  | list _ _ items _ => items.zipIdx.map fun p => (.index p.2, p.1)

theorem postOrderProperties_eq_flatMap (ps : List (String × Node)) :
    postOrderProperties [] ps
      = ps.flatMap fun p => seenFrom [.property p.1] p.2.postOrder := by
  induction ps with
  | nil => rfl
  | cons p ps ih =>
    obtain ⟨key, v⟩ := p
    rw [postOrderProperties, postOrderFrom_eq, ih, List.flatMap_cons]
    rfl

theorem postOrderItems_eq_flatMap (k : Nat) (xs : List Node) :
    postOrderItems [] k xs
      = (xs.zipIdx k).flatMap fun p => seenFrom [.index p.2] p.1.postOrder := by
  induction xs generalizing k with
  | nil => rfl
  | cons x xs ih =>
    rw [postOrderItems, postOrderFrom_eq, ih, List.zipIdx_cons, List.flatMap_cons]
    rfl

/-- A walk goes through the subtrees of the children, in order, and ends at the root. -/
theorem postOrder_eq (n : Node) :
    n.postOrder = (n.children.flatMap fun c => seenFrom [c.1] c.2.postOrder) ++ [([], n)] := by
  cases n with
  | primitive text i => rfl
  | object name props i =>
    rw [postOrder, postOrderFrom, postOrderProperties_eq_flatMap, children, List.flatMap_map]
    rfl
  | list name op items i =>
    rw [postOrder, postOrderFrom, postOrderItems_eq_flatMap, children, List.flatMap_map]
    rfl

variable {n m new : Node} {path p q : Path} {s t : Step}

theorem mem_children_of_child? {c : Node} (h : n.child? s = some c) : (s, c) ∈ n.children := by
  cases s with
  | property key =>
    cases n with
    | primitive text i => simp [child?] at h
    | list name op items i => simp [child?] at h
    | object name props i =>
      obtain ⟨done, rest, hprops, -⟩ := List.lookup_eq_some_iff.mp h
      have hmem : (key, c) ∈ props := hprops ▸ List.mem_append_right done List.mem_cons_self
      exact List.mem_map.mpr ⟨(key, c), hmem, rfl⟩
  | index k =>
    cases n with
    | primitive text i => simp [child?] at h
    | object name props i => simp [child?] at h
    | list name op items i =>
      exact List.mem_map.mpr ⟨(c, k), List.mem_zipIdx_iff_getElem?.mpr h, rfl⟩

theorem seenFrom_sublist_postOrder {c : Node} (h : n.child? s = some c) :
    (seenFrom [s] c.postOrder).Sublist n.postOrder := by
  rw [postOrder_eq n]
  refine .trans ?_ (List.sublist_append_left _ _)
  exact List.sublist_flatten_of_mem (List.mem_map.mpr ⟨(s, c), mem_children_of_child? h, rfl⟩)

/-! ## Walks -/

/-- The paths that a walk visits, in order. -/
def visited (n : Node) : List Path := n.postOrder.map Prod.fst

theorem root_mem_postOrder (n : Node) : ([], n) ∈ n.postOrder := by
  rw [postOrder_eq]
  exact List.mem_append_right _ (List.mem_singleton_self _)

theorem mem_postOrder_of_get? (h : n.get? path = some m) : (path, m) ∈ n.postOrder := by
  induction path generalizing n with
  | nil =>
    obtain rfl := Option.some.inj h
    exact root_mem_postOrder n
  | cons s path ih =>
    obtain ⟨c, hc, hm⟩ := Option.bind_eq_some_iff.mp h
    refine (seenFrom_sublist_postOrder hc).subset ?_
    exact List.mem_map.mpr ⟨(path, m), ih hm, rfl⟩

theorem mem_postOrder_iff (hn : n.Keyed) : (path, m) ∈ n.postOrder ↔ n.get? path = some m :=
  ⟨get?_of_mem_postOrder hn, mem_postOrder_of_get?⟩

theorem mem_visited (h : (n.get? path).isSome) : path ∈ n.visited := by
  obtain ⟨m, hm⟩ := Option.isSome_iff_exists.mp h
  exact List.mem_map.mpr ⟨(path, m), mem_postOrder_of_get? hm, rfl⟩

theorem visited_nodup (hn : n.Keyed) : n.visited.Nodup := by
  refine List.pairwise_map.mpr ((pairwise_postOrder n hn).imp fun hpq he => hpq ?_)
  exact he ▸ List.prefix_rfl

theorem visited_eq (n : Node) :
    n.visited = (n.children.flatMap fun c => c.2.visited.map (c.1 :: ·)) ++ [[]] := by
  rw [visited, postOrder_eq, List.map_append, List.map_flatMap]
  simp [visited, seenFrom, Function.comp_def]

theorem map_cons_sublist_visited {c : Node} (h : n.child? s = some c) :
    (c.visited.map (s :: ·)).Sublist n.visited := by
  have hsub := (seenFrom_sublist_postOrder h).map Prod.fst
  rw [seenFrom, List.map_map] at hsub
  rw [visited, List.map_map]
  exact hsub

theorem isSome_get?_cons : (n.get? (s :: path)).isSome ↔ ∃ c, n.child? s = some c
    ∧ (c.get? path).isSome := by
  rw [get?, Option.isSome_bind]
  cases n.child? s <;> simp

/-- When one place of a tree is visited before another: when it lies below it, or when both lie
below one node, in the trees of an earlier and a later child. -/
inductive Precedes (n : Node) : Path → Path → Prop
  | below (p : Path) {q : Path} (hq : q ≠ []) (h : (n.get? (p ++ q)).isSome) : Precedes n (p ++ q) p
  | beside {path p q : Path} {m c d : Node} {s t : Step} (hm : n.get? path = some m)
      (hcd : [(s, c), (t, d)].Sublist m.children) (hp : (c.get? p).isSome)
      (hq : (d.get? q).isSome) : Precedes n (path ++ s :: p) (path ++ t :: q)

theorem below_sublist (hq : q ≠ []) (h : (n.get? (p ++ q)).isSome) :
    [p ++ q, p].Sublist n.visited := by
  induction p generalizing n with
  | nil =>
    cases q with
    | nil => exact absurd rfl hq
    | cons s q =>
      obtain ⟨c, hc, hrest⟩ := isSome_get?_cons.mp h
      have hmem : s :: q ∈ n.children.flatMap fun c => c.2.visited.map (c.1 :: ·) :=
        List.mem_flatMap.mpr ⟨(s, c), mem_children_of_child? hc,
          List.mem_map.mpr ⟨q, mem_visited hrest, rfl⟩⟩
      rw [visited_eq]
      exact (List.singleton_sublist.mpr hmem).append (.refl [[]])
  | cons s p ih =>
    obtain ⟨c, hc, hrest⟩ := isSome_get?_cons.mp h
    exact ((ih hrest).map (s :: ·)).trans (map_cons_sublist_visited hc)

theorem beside_sublist {c d : Node} (hm : n.get? path = some m)
    (hcd : [(s, c), (t, d)].Sublist m.children) (hp : (c.get? p).isSome)
    (hq : (d.get? q).isSome) : [path ++ s :: p, path ++ t :: q].Sublist n.visited := by
  induction path generalizing n with
  | nil =>
    obtain rfl := Option.some.inj hm
    have hpair : [s :: p, t :: q].Sublist
        (c.visited.map (s :: ·) ++ d.visited.map (t :: ·)) :=
      ((List.singleton_sublist.mpr (mem_visited hp)).map (s :: ·)).append
        ((List.singleton_sublist.mpr (mem_visited hq)).map (t :: ·))
    have hsub := hcd.flatMap fun c => c.2.visited.map (c.1 :: ·)
    simp only [List.flatMap_cons, List.flatMap_nil, List.append_nil] at hsub
    rw [visited_eq]
    exact (hpair.trans hsub).trans (List.sublist_append_left _ _)
  | cons u path ih =>
    obtain ⟨c', hc', hm⟩ := Option.bind_eq_some_iff.mp hm
    exact ((ih hm).map (u :: ·)).trans (map_cons_sublist_visited hc')

theorem Precedes.sublist (h : n.Precedes p q) : [p, q].Sublist n.visited := by
  cases h with
  | below p hq h => exact below_sublist hq h
  | beside hm hcd hp hq => exact beside_sublist hm hcd hp hq

/-! ## Replacements -/

theorem get?_of_replace? (h : n.replace? path new = some m) : (n.get? path).isSome := by
  induction path generalizing n m with
  | nil => rfl
  | cons s path ih =>
    obtain ⟨-, ⟨v, w, hv, hvw, -⟩, -⟩ := modify?_cons h
    exact isSome_get?_cons.mpr ⟨v, hv, ih hvw⟩

theorem replace?_isSome_iff : (∃ m, n.replace? path new = some m) ↔ (n.get? path).isSome := by
  constructor
  · rintro ⟨m, hm⟩
    exact get?_of_replace? hm
  · intro h
    obtain ⟨slot, hslot⟩ := Option.isSome_iff_exists.mp h
    exact replace?_of_get? hslot new

theorem replace_eq_ok_iff : n.replace path new = .ok m ↔ n.replace? path new = some m := by
  rw [replace]
  cases n.replace? path new <;> simp

theorem get?_replace?_below (h : n.replace? path new = some m) (q : Path) :
    m.get? (path ++ q) = new.get? q := by
  induction path generalizing n m with
  | nil =>
    obtain rfl := Option.some.inj h
    rfl
  | cons s path ih =>
    obtain ⟨-, ⟨v, w, -, hvw, hw⟩, -⟩ := modify?_cons h
    rw [List.cons_append, get?, hw]
    exact ih hvw

theorem get?_replace?_beside (h : n.replace? path new = some m) (hp : ¬path <+: q)
    (hq : ¬q <+: path) : m.get? q = n.get? q := by
  induction path generalizing n m q with
  | nil => exact absurd List.nil_prefix hp
  | cons s path ih =>
    obtain ⟨-, ⟨v, w, hv, hvw, hw⟩, hother⟩ := modify?_cons h
    cases q with
    | nil => exact absurd List.nil_prefix hq
    | cons t q =>
      by_cases hst : t = s
      · subst hst
        rw [List.cons_prefix_cons, eq_self, true_and] at hp hq
        rw [get?, get?, hv, hw]
        exact ih hvw hp hq
      · rw [get?, get?, hother t hst]

/-! ## Addresses -/

/-- The paths of a tree are addresses of its nodes. A walk visits those that lead somewhere, each
once and with the node that it leads to, in the order of places. A replacement is made just at
these; it puts a tree behind its path, leaves what stands beside the path, and if it fails the tree
that there was is still what there is. -/
theorem paths_address (hn : n.Keyed) :
    (∀ path m, (path, m) ∈ n.postOrder ↔ n.get? path = some m)
    ∧ n.visited.Nodup
    ∧ (∀ p q, n.Precedes p q → [p, q].Sublist n.visited)
    ∧ ∀ path new,
      let result := n.replace path new
      let after := result.toOption.getD n
      ((∃ m, result = .ok m) ↔ (n.get? path).isSome)
      ∧ ((n.get? path).isSome → ∀ q, after.get? (path ++ q) = new.get? q)
      ∧ (∀ q, ¬path <+: q → ¬q <+: path → after.get? q = n.get? q)
      ∧ (n.get? path = none → result = .error (.invalidPath path.text) ∧ after = n) := by
  refine ⟨fun path m => mem_postOrder_iff hn, visited_nodup hn, fun p q => Precedes.sublist,
    fun path new => ?_⟩
  simp only [replace_eq_ok_iff, replace?_isSome_iff]
  cases hr : n.replace? path new with
  | none =>
    have hnone : ¬(n.get? path).isSome := fun h => by
      obtain ⟨m, hm⟩ : ∃ m, n.replace? path new = some m := replace?_isSome_iff.mpr h
      simp [hr] at hm
    have hresult : n.replace path new = .error (.invalidPath path.text) := by rw [replace, hr]
    rw [hresult]
    exact ⟨by simp, fun h => absurd h hnone, fun _ _ _ => rfl, fun _ => ⟨rfl, rfl⟩⟩
  | some m =>
    have hsome : (n.get? path).isSome := get?_of_replace? hr
    have hresult : n.replace path new = .ok m := replace_eq_ok_iff.mpr hr
    rw [hresult]
    exact ⟨by simp, fun _ => get?_replace?_below hr, fun q => get?_replace?_beside hr,
      fun h => by simp [h] at hsome⟩

theorem paths_address_nested :
    let inner := object "" [("k", value "v")] {}
    let tree := object "" [("list", list "" false [value "a", inner] {})] {}
    let first : Path := [.property "list", .index 0]
    let second : Path := [.property "list", .index 1]
    tree.Keyed
      ∧ tree.visited
        = [first, second ++ [.property "k"], second, [.property "list"], []]
      ∧ (second, inner) ∈ tree.postOrder
      ∧ (∀ q, ((tree.replace first inner).toOption.getD tree).get? (first ++ q) = inner.get? q)
      ∧ ((tree.replace first inner).toOption.getD tree).get? second = some inner
      ∧ tree.replace [.index 0] inner = .error (.invalidPath "[0]") := by
  intro inner tree first second
  have hk : tree.Keyed := by simp [tree, inner, Keyed, KeyedProperties, KeyedItems, Properties.keys,
    value]
  obtain ⟨hmem, -, -, hreplace⟩ := paths_address hk
  obtain ⟨-, hbelow, hbeside, -⟩ := hreplace first inner
  refine ⟨hk, rfl, (hmem second inner).mpr rfl, hbelow rfl, ?_, ?_⟩
  · exact (hbeside second (by decide) (by decide)).trans rfl
  · exact ((hreplace [.index 0] inner).2.2.2 rfl).1

end ConfigScript.Node
