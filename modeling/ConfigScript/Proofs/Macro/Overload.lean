import ConfigScript.Macro.Overload
import ConfigScript.Proofs.Node.Keyed

/-! # Overloads look at outlines

An overload is chosen by the keys of the object it is applied to, or by the number of elements of
the list, and by nothing that stands below them. -/

namespace ConfigScript

/-- The same keys, or as many elements. -/
structure SameOutline (m n : Node) : Prop where
  keys : m.properties?.map Properties.keys = n.properties?.map Properties.keys
  count : m.items?.map List.length = n.items?.map List.length

theorem SameOutline.object {ps qs : List (String × Node)}
    (h : Properties.keys ps = Properties.keys qs) (name : String) (i j : NodeInfo) :
    SameOutline (.object name ps i) (.object name qs j) :=
  ⟨congrArg some h, rfl⟩

theorem SameOutline.list {xs ys : List Node} (h : xs.length = ys.length) (name : String)
    (op : Bool) (i j : NodeInfo) : SameOutline (.list name op xs i) (.list name op ys j) :=
  ⟨rfl, congrArg some h⟩

theorem keyedScore_congr (params : List Param) {ps qs : List (String × Node)}
    (h : Properties.keys ps = Properties.keys qs) :
    keyedScore params ps = keyedScore params qs := by
  have hcontains (key : String) : Properties.contains key ps = Properties.contains key qs := by
    rw [Bool.eq_iff_iff, Properties.contains_iff, Properties.contains_iff, h]
  have hlength : ps.length = qs.length := by simpa [Properties.keys] using congrArg List.length h
  simp only [keyedScore, hcontains, hlength]

theorem score_congr (callee : Macro) {m n : Node} (h : SameOutline m n) :
    callee.score m = callee.score n := by
  obtain ⟨hkeys, hcount⟩ := h
  unfold Macro.score
  split
  · cases hm : m.properties? with
    | none =>
      rw [hm] at hkeys
      rw [Option.map_eq_none_iff.mp hkeys.symm]
    | some ps =>
      rw [hm] at hkeys
      obtain ⟨qs, hn, hqs⟩ := Option.map_eq_some_iff.mp hkeys.symm
      rw [hn]
      exact keyedScore_congr callee.params hqs.symm
  · cases hm : m.items? with
    | none =>
      rw [hm] at hcount
      rw [Option.map_eq_none_iff.mp hcount.symm]
    | some xs =>
      rw [hm] at hcount
      obtain ⟨ys, hn, hys⟩ := Option.map_eq_some_iff.mp hcount.symm
      rw [hn]
      exact congrArg (positionalScore callee.params) hys.symm

theorem chooseOverload_congr (group : List Macro) {m n : Node} (h : SameOutline m n) :
    chooseOverload group m = chooseOverload group n := by
  have hscore : Macro.score m = Macro.score n := funext fun callee => score_congr callee h
  rw [chooseOverload, chooseOverload, hscore]

theorem searchGroup_congr {kind : MacroKind} (hk : kind.isFunction = false) (group : List Macro)
    {m n : Node} (h : SameOutline m n) : searchGroup kind group m = searchGroup kind group n := by
  simp only [searchGroup, hk, Bool.false_eq_true, if_false, chooseOverload_congr group h]

theorem searchGroup_congr_args {kind : MacroKind} (hk : kind.isFunction = true)
    (group : List Macro) {m n x y : Node} (h : SameOutline x y) (name : String) (op : Bool)
    (i j : NodeInfo) : searchGroup kind group (.list name op [m, x] i)
      = searchGroup kind group (.list name op [n, y] j) := by
  simp only [searchGroup, hk, if_true, Node.items?, chooseOverload_congr group h]

theorem searchGroup_congr_bare {kind : MacroKind} (hk : kind.takesParameters = false)
    (group : List Macro) (m n : Node) : searchGroup kind group m = searchGroup kind group n := by
  simp only [searchGroup, hk, Bool.false_eq_true, if_false]

end ConfigScript
