import ConfigScript.Node.Marks
import ConfigScript.Proofs.Node.Keyed
import ConfigScript.Proofs.Node.Path

/-! # Outlines

The outline of a node is what can be seen of it without looking below it. Replacing what stands at
a path changes no outline but those at and below that path, and in the order of a template's edits
nothing that stands at or above a path comes before it. -/

namespace ConfigScript

/-- What is seen of a node without looking below it. -/
inductive Outline
  | primitive (text : String)
  | object (name : String) (keys : List String)
  | list (name : String) (operation : Bool) (count : Nat)
  deriving DecidableEq, Repr

namespace Properties

variable {key other : String} {f : Node → Option Node} {ps qs : List (String × Node)}

theorem keys_modify? (h : modify? key f ps = some qs) : keys qs = keys ps := by
  induction ps generalizing qs with
  | nil => simp [modify?] at h
  | cons p ps ih =>
    obtain ⟨k, v⟩ := p
    rw [modify?] at h
    split at h
    · obtain ⟨w, -, rfl⟩ := Option.map_eq_some_iff.mp h
      rfl
    · obtain ⟨rs, hrs, rfl⟩ := Option.map_eq_some_iff.mp h
      exact congrArg (k :: ·) (ih hrs)

theorem get?_cons (key k : String) (v : Node) (ps : List (String × Node)) :
    get? key ((k, v) :: ps) = if k = key then some v else get? key ps := by
  rw [get?, List.lookup_cons]
  by_cases hk : k = key
  · rw [if_pos hk, beq_iff_eq.mpr hk.symm]
  · rw [if_neg hk, beq_false_of_ne (Ne.symm hk)]
    rfl

theorem get?_modify?_self (h : modify? key f ps = some qs) :
    ∃ v w, get? key ps = some v ∧ f v = some w ∧ get? key qs = some w := by
  induction ps generalizing qs with
  | nil => simp [modify?] at h
  | cons p ps ih =>
    obtain ⟨k, v⟩ := p
    rw [modify?] at h
    split at h
    · rename_i hk
      obtain ⟨w, hw, rfl⟩ := Option.map_eq_some_iff.mp h
      exact ⟨v, w, by rw [get?_cons, if_pos hk], hw, by rw [get?_cons, if_pos hk]⟩
    · rename_i hk
      obtain ⟨rs, hrs, rfl⟩ := Option.map_eq_some_iff.mp h
      rw [get?_cons, get?_cons, if_neg hk, if_neg hk]
      exact ih hrs

theorem get?_modify?_of_ne (h : modify? key f ps = some qs) (hne : other ≠ key) :
    get? other qs = get? other ps := by
  induction ps generalizing qs with
  | nil => simp [modify?] at h
  | cons p ps ih =>
    obtain ⟨k, v⟩ := p
    rw [modify?] at h
    split at h
    · rename_i hk
      obtain ⟨w, -, rfl⟩ := Option.map_eq_some_iff.mp h
      have hother : ¬k = other := fun ho => hne (ho.symm.trans hk)
      rw [get?_cons, get?_cons, if_neg hother, if_neg hother]
    · obtain ⟨rs, hrs, rfl⟩ := Option.map_eq_some_iff.mp h
      rw [get?_cons, get?_cons, ih hrs]

theorem get?_of_mem {v : Node} (hk : (keys ps).Nodup) (h : (key, v) ∈ ps) :
    get? key ps = some v := by
  obtain ⟨done, rest, rfl⟩ := List.append_of_mem h
  refine Node.lookup_append (fun hmem => ?_) v rest
  rw [keys, List.map_append] at hk
  exact (List.nodup_append.mp hk).2.2 key hmem key List.mem_cons_self rfl

end Properties

section

variable {f : Node → Option Node} {k other : Nat} {xs ys : List Node}

theorem length_modifyItem? (h : modifyItem? f k xs = some ys) : ys.length = xs.length := by
  induction xs generalizing k ys with
  | nil => simp [modifyItem?] at h
  | cons x xs ih =>
    cases k with
    | zero =>
      obtain ⟨y, -, rfl⟩ := Option.map_eq_some_iff.mp h
      rfl
    | succ k =>
      obtain ⟨zs, hzs, rfl⟩ := Option.map_eq_some_iff.mp h
      exact congrArg (· + 1) (ih hzs)

theorem getElem?_modifyItem?_self (h : modifyItem? f k xs = some ys) :
    ∃ v w, xs[k]? = some v ∧ f v = some w ∧ ys[k]? = some w := by
  induction xs generalizing k ys with
  | nil => simp [modifyItem?] at h
  | cons x xs ih =>
    cases k with
    | zero =>
      obtain ⟨y, hy, rfl⟩ := Option.map_eq_some_iff.mp h
      exact ⟨x, y, rfl, hy, rfl⟩
    | succ k =>
      obtain ⟨zs, hzs, rfl⟩ := Option.map_eq_some_iff.mp h
      exact ih hzs

theorem getElem?_modifyItem?_of_ne (h : modifyItem? f k xs = some ys) (hne : other ≠ k) :
    ys[other]? = xs[other]? := by
  induction xs generalizing k other ys with
  | nil => simp [modifyItem?] at h
  | cons x xs ih =>
    cases k with
    | zero =>
      obtain ⟨y, -, rfl⟩ := Option.map_eq_some_iff.mp h
      obtain ⟨i, rfl⟩ := Nat.exists_eq_succ_of_ne_zero hne
      rfl
    | succ k =>
      obtain ⟨zs, hzs, rfl⟩ := Option.map_eq_some_iff.mp h
      cases other with
      | zero => rfl
      | succ i => exact ih hzs fun hi => hne (congrArg (· + 1) hi)

end

namespace Node

def outline : Node → Outline
  | primitive text _ => .primitive text
  | object name props _ => .object name (Properties.keys props)
  | list name op items _ => .list name op items.length

/-! ## Outlines after a replacement -/

theorem modify?_cons {f : Node → Option Node} {step : Step} {path : Path} {n m : Node}
    (h : n.modify? f (step :: path) = some m) : m.outline = n.outline
      ∧ (∃ v w, n.child? step = some v ∧ v.modify? f path = some w ∧ m.child? step = some w)
      ∧ ∀ other, other ≠ step → m.child? other = n.child? other := by
  cases step with
  | property key =>
    cases n with
    | primitive text i => simp [modify?] at h
    | list name op items i => simp [modify?] at h
    | object name props i =>
      obtain ⟨qs, hqs, rfl⟩ := Option.map_eq_some_iff.mp h
      refine ⟨congrArg (Outline.object name) (Properties.keys_modify? hqs),
        Properties.get?_modify?_self hqs, fun other hne => ?_⟩
      cases other with
      | index k => rfl
      | property other => exact Properties.get?_modify?_of_ne hqs fun ho => hne (congrArg _ ho)
  | index k =>
    cases n with
    | primitive text i => simp [modify?] at h
    | object name props i => simp [modify?] at h
    | list name op items i =>
      obtain ⟨ys, hys, rfl⟩ := Option.map_eq_some_iff.mp h
      refine ⟨congrArg (Outline.list name op) (length_modifyItem? hys),
        getElem?_modifyItem?_self hys, fun other hne => ?_⟩
      cases other with
      | property key => rfl
      | index other => exact getElem?_modifyItem?_of_ne hys fun ho => hne (congrArg _ ho)

/-- A replacement changes no outline but those at its path and below it. -/
theorem outline_replace? {n m new : Node} {path q : Path} (h : n.replace? path new = some m)
    (hq : ¬path <+: q) : (m.get? q).map outline = (n.get? q).map outline := by
  induction path generalizing n m q with
  | nil => exact absurd List.nil_prefix hq
  | cons step path ih =>
    obtain ⟨houtline, ⟨v, w, hv, hvw, hw⟩, hother⟩ := modify?_cons h
    cases q with
    | nil => exact congrArg some houtline
    | cons other q =>
      by_cases hstep : other = step
      · subst hstep
        rw [get?, get?, hv, hw]
        exact ih hvw fun hpre => hq (List.cons_prefix_cons.mpr ⟨rfl, hpre⟩)
      · rw [get?, get?, hother other hstep]

/-! ## Places in post-order -/

theorem mem_postOrderProperties {ps : List (String × Node)} {p : Path × Node}
    (h : p ∈ postOrderProperties [] ps) : ∃ key v rest, (key, v) ∈ ps
      ∧ p.1 = .property key :: rest ∧ (rest, p.2) ∈ v.postOrder := by
  induction ps with
  | nil => simp [postOrderProperties] at h
  | cons q ps ih =>
    obtain ⟨key, v⟩ := q
    rw [postOrderProperties, postOrderFrom_eq, List.mem_append] at h
    rcases h with h | h
    · obtain ⟨r, hr, rfl⟩ := List.mem_map.mp h
      exact ⟨key, v, r.1, List.mem_cons_self, rfl, hr⟩
    · obtain ⟨key', v', rest, hmem, hp⟩ := ih h
      exact ⟨key', v', rest, List.mem_cons_of_mem _ hmem, hp⟩

theorem mem_postOrderItems {k : Nat} {xs : List Node} {p : Path × Node}
    (h : p ∈ postOrderItems [] k xs) : ∃ i x rest, xs[i]? = some x
      ∧ p.1 = .index (k + i) :: rest ∧ (rest, p.2) ∈ x.postOrder := by
  induction xs generalizing k with
  | nil => simp [postOrderItems] at h
  | cons x xs ih =>
    rw [postOrderItems, postOrderFrom_eq, List.mem_append] at h
    rcases h with h | h
    · obtain ⟨r, hr, rfl⟩ := List.mem_map.mp h
      exact ⟨0, x, r.1, rfl, rfl, hr⟩
    · obtain ⟨i, y, rest, hy, hp, hrest⟩ := ih h
      exact ⟨i + 1, y, rest, hy, by rw [hp]; congr 2; omega, hrest⟩

theorem keyed_child? {n c : Node} {step : Step} (hn : n.Keyed) (h : n.child? step = some c) :
    c.Keyed := by
  cases step with
  | property key =>
    cases n with
    | primitive text i => simp [child?] at h
    | list name op items i => simp [child?] at h
    | object name props i =>
      obtain ⟨done, rest, hprops, -⟩ := List.lookup_eq_some_iff.mp h
      have hmem : (key, c) ∈ props := hprops ▸ List.mem_append_right done List.mem_cons_self
      exact keyed_of_mem_properties hn.2 hmem
  | index k =>
    cases n with
    | primitive text i => simp [child?] at h
    | object name props i => simp [child?] at h
    | list name op items i => exact keyedItems_iff.mp hn c (List.mem_of_getElem? h)

theorem mem_postOrder {n : Node} (hn : n.Keyed) {p : Path × Node} (h : p ∈ n.postOrder) :
    p = ([], n) ∨ ∃ step c rest, n.child? step = some c ∧ p.1 = step :: rest
      ∧ (rest, p.2) ∈ c.postOrder := by
  cases n with
  | primitive text i => exact .inl (List.mem_singleton.mp h)
  | object name props i =>
    rcases List.mem_append.mp h with h | h
    · obtain ⟨key, v, rest, hmem, hp, hrest⟩ := mem_postOrderProperties h
      exact .inr ⟨.property key, v, rest, Properties.get?_of_mem hn.1 hmem, hp, hrest⟩
    · exact .inl (List.mem_singleton.mp h)
  | list name op items i =>
    rcases List.mem_append.mp h with h | h
    · obtain ⟨k, x, rest, hx, hp, hrest⟩ := mem_postOrderItems h
      rw [Nat.zero_add] at hp
      exact .inr ⟨.index k, x, rest, hx, hp, hrest⟩
    · exact .inl (List.mem_singleton.mp h)

theorem get?_of_mem_postOrder {n m : Node} {path : Path} (hn : n.Keyed)
    (h : (path, m) ∈ n.postOrder) : n.get? path = some m := by
  induction path generalizing n with
  | nil =>
    rcases mem_postOrder hn h with he | ⟨step, c, rest, -, hp, -⟩
    · rw [get?, (Prod.mk.inj he).2]
    · simp at hp
  | cons step path ih =>
    rcases mem_postOrder hn h with he | ⟨step', c, rest, hc, hp, hrest⟩
    · simp at he
    · obtain ⟨rfl, rfl⟩ := List.cons.inj hp
      rw [get?, hc, Option.bind_some]
      exact ih (keyed_child? hn hc) hrest

/-- The first place does not lie on the way to the second. -/
def NotAbove (p q : Path × Node) : Prop := ¬p.1 <+: q.1

theorem notAbove_root {p : Path × Node} (h : p.1 ≠ []) (n : Node) : NotAbove p ([], n) :=
  fun hp => h (List.prefix_nil.mp hp)

theorem notAbove_of_steps {p q : Path × Node} {step other : Step} {path rest : Path}
    (hp : p.1 = step :: path) (hq : q.1 = other :: rest) (hne : step ≠ other) : NotAbove p q := by
  rw [NotAbove, hp, hq]
  exact fun h => hne (List.cons_prefix_cons.mp h).1

theorem pairwise_seenFrom {step : Step} {nodes : List (Path × Node)}
    (h : nodes.Pairwise NotAbove) : (seenFrom [step] nodes).Pairwise NotAbove := by
  refine List.pairwise_map.mpr (h.imp fun hpq hpre => hpq ?_)
  exact (List.cons_prefix_cons.mp hpre).2

mutual

/-- In post-order no place is followed by one at or below it. -/
theorem pairwise_postOrder (n : Node) (hn : n.Keyed) : n.postOrder.Pairwise NotAbove := by
  cases n with
  | primitive text i => exact List.pairwise_singleton _ _
  | object name props i =>
    rw [Keyed] at hn
    refine List.pairwise_append.mpr ⟨pairwise_postOrderProperties props hn.1 hn.2,
      List.pairwise_singleton _ _, fun p hp q hq => ?_⟩
    obtain ⟨key, v, rest, -, hpath, -⟩ := mem_postOrderProperties hp
    rw [List.mem_singleton.mp hq]
    exact notAbove_root (by simp [hpath]) _
  | list name op items i =>
    rw [Keyed] at hn
    refine List.pairwise_append.mpr ⟨pairwise_postOrderItems 0 items hn,
      List.pairwise_singleton _ _, fun p hp q hq => ?_⟩
    obtain ⟨k, x, rest, -, hpath, -⟩ := mem_postOrderItems hp
    rw [List.mem_singleton.mp hq]
    exact notAbove_root (by simp [hpath]) _

theorem pairwise_postOrderProperties (ps : List (String × Node)) (hd : (Properties.keys ps).Nodup)
    (hk : KeyedProperties ps) : (postOrderProperties [] ps).Pairwise NotAbove := by
  cases ps with
  | nil => exact .nil
  | cons p ps =>
    obtain ⟨key, v⟩ := p
    rw [KeyedProperties] at hk
    obtain ⟨hkey, hd⟩ := List.nodup_cons.mp hd
    rw [postOrderProperties, postOrderFrom_eq]
    refine List.pairwise_append.mpr ⟨pairwise_seenFrom (pairwise_postOrder v hk.1),
      pairwise_postOrderProperties ps hd hk.2, fun p hp q hq => ?_⟩
    obtain ⟨r, -, rfl⟩ := List.mem_map.mp hp
    obtain ⟨other, w, rest, hmem, hpath, -⟩ := mem_postOrderProperties hq
    refine notAbove_of_steps rfl hpath fun hstep => hkey ?_
    rw [Step.property.inj hstep]
    exact List.mem_map.mpr ⟨(other, w), hmem, rfl⟩

theorem pairwise_postOrderItems (k : Nat) (xs : List Node) (hk : KeyedItems xs) :
    (postOrderItems [] k xs).Pairwise NotAbove := by
  cases xs with
  | nil => exact .nil
  | cons x xs =>
    rw [KeyedItems] at hk
    rw [postOrderItems, postOrderFrom_eq]
    refine List.pairwise_append.mpr ⟨pairwise_seenFrom (pairwise_postOrder x hk.1),
      pairwise_postOrderItems (k + 1) xs hk.2, fun p hp q hq => ?_⟩
    obtain ⟨r, -, rfl⟩ := List.mem_map.mp hp
    obtain ⟨i, y, rest, -, hpath, -⟩ := mem_postOrderItems hq
    refine notAbove_of_steps rfl hpath fun hstep => ?_
    have hindex := Step.index.inj hstep
    omega

end

/-! ## Nodes without their marks -/

theorem outline_clearMarks (n : Node) : n.clearMarks.outline = n.outline := by
  have hkeys (ps : List (String × Node)) :
      Properties.keys (clearMarksProperties ps) = Properties.keys ps := by
    induction ps with
    | nil => rfl
    | cons p ps ih => exact congrArg (p.1 :: ·) ih
  have hlength (xs : List Node) : (clearMarksItems xs).length = xs.length := by
    induction xs with
    | nil => rfl
    | cons x xs ih => exact congrArg (· + 1) ih
  cases n with
  | primitive text i => rfl
  | object name props i => exact congrArg (Outline.object name) (hkeys props)
  | list name op items i => exact congrArg (Outline.list name op) (hlength items)

theorem child?_clearMarks (step : Step) (n : Node) :
    n.clearMarks.child? step = (n.child? step).map clearMarks := by
  have hget (key : String) (ps : List (String × Node)) :
      Properties.get? key (clearMarksProperties ps) = (Properties.get? key ps).map clearMarks := by
    induction ps with
    | nil => rfl
    | cons p ps ih =>
      obtain ⟨k, v⟩ := p
      rw [clearMarksProperties, Properties.get?_cons, Properties.get?_cons, ih]
      split <;> rfl
  have hindex (k : Nat) (xs : List Node) :
      (clearMarksItems xs)[k]? = xs[k]?.map clearMarks := by
    induction xs generalizing k with
    | nil => rfl
    | cons x xs ih =>
      cases k with
      | zero => rfl
      | succ k => exact ih k
  cases step with
  | property key =>
    cases n with
    | primitive text i => rfl
    | object name props i => exact hget key props
    | list name op items i => rfl
  | index k =>
    cases n with
    | primitive text i => rfl
    | object name props i => rfl
    | list name op items i => exact hindex k items

theorem get?_clearMarks (path : Path) (n : Node) :
    n.clearMarks.get? path = (n.get? path).map clearMarks := by
  induction path generalizing n with
  | nil => rfl
  | cons step path ih =>
    rw [get?, get?, child?_clearMarks]
    cases n.child? step with
    | none => rfl
    | some c => exact ih c

theorem get?_append_singleton (path : Path) (step : Step) (n : Node) :
    n.get? (path ++ [step]) = (n.get? path).bind (child? step) := by
  induction path generalizing n with
  | nil =>
    rw [List.nil_append, get?, get?, Option.bind_some]
    cases n.child? step <;> rfl
  | cons other path ih =>
    rw [List.cons_append, get?, get?]
    cases n.child? other with
    | none => rfl
    | some c => exact ih c

end Node

end ConfigScript
