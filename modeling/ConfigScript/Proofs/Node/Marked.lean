import ConfigScript.Node.Marks
import ConfigScript.Proofs.Node.Keyed
import ConfigScript.Proofs.Node.Path

/-! # Marked nodes

What is gathered from the nodes of a tree comes from the children of a node, in order, and then
from the node itself; so do its marks, and its marked nodes. -/

namespace ConfigScript.Node

section

variable {β : Type} (f : Node → Option β)

/-- What the nodes of a tree give, children before their parent. -/
def gather (n : Node) : List β := n.postOrder.filterMap fun p => f p.2

theorem gather_postOrderFrom (path : Path) (n : Node) :
    ((postOrderFrom path n).filterMap fun p => f p.2) = n.gather f := by
  rw [postOrderFrom_eq, seenFrom, List.filterMap_map]
  rfl

theorem gather_properties (ps : List (String × Node)) :
    ((postOrderProperties [] ps).filterMap fun p => f p.2) = ps.flatMap fun p => p.2.gather f := by
  induction ps with
  | nil => rfl
  | cons p ps ih =>
    rw [postOrderProperties, List.filterMap_append, gather_postOrderFrom, ih, List.flatMap_cons]

theorem gather_items (k : Nat) (xs : List Node) :
    ((postOrderItems [] k xs).filterMap fun p => f p.2) = xs.flatMap (gather f) := by
  induction xs generalizing k with
  | nil => rfl
  | cons x xs ih =>
    rw [postOrderItems, List.filterMap_append, gather_postOrderFrom, ih, List.flatMap_cons]

theorem gather_own (path : Path) (n : Node) :
    ([(path, n)].filterMap fun p => f p.2) = (f n).toList := by
  cases h : f n <;> simp [h]

theorem gather_object (name : String) (ps : List (String × Node)) (i : NodeInfo) :
    (object name ps i).gather f
      = (ps.flatMap fun p => p.2.gather f) ++ (f (object name ps i)).toList := by
  rw [gather, postOrder, postOrderFrom, List.filterMap_append, gather_properties, gather_own]

theorem gather_list (name : String) (op : Bool) (xs : List Node) (i : NodeInfo) :
    (list name op xs i).gather f
      = xs.flatMap (gather f) ++ (f (list name op xs i)).toList := by
  rw [gather, postOrder, postOrderFrom, List.filterMap_append, gather_items, gather_own]

theorem gather_primitive (text : String) (i : NodeInfo) :
    (primitive text i).gather f = (f (primitive text i)).toList := by
  rw [gather, postOrder, postOrderFrom, gather_own]

end

/-! ## Marks -/

theorem marks_object (name : String) (ps : List (String × Node)) (i : NodeInfo) :
    (object name ps i).marks = (ps.flatMap fun p => p.2.marks) ++ i.mark.toList :=
  gather_object mark name ps i

theorem marks_list (name : String) (op : Bool) (xs : List Node) (i : NodeInfo) :
    (list name op xs i).marks = xs.flatMap marks ++ i.mark.toList :=
  gather_list mark name op xs i

theorem marks_primitive (text : String) (i : NodeInfo) :
    (primitive text i).marks = i.mark.toList :=
  gather_primitive mark text i

theorem marks_setMark {n : Node} (h : n.mark = none) (k : Nat) :
    (n.setMark (some k)).marks = n.marks ++ [k] := by
  cases n with
  | primitive text i =>
    rw [mark, info] at h
    rw [setMark, setInfo, marks_primitive, marks_primitive, info, h]
    rfl
  | object name ps i =>
    rw [mark, info] at h
    rw [setMark, setInfo, marks_object, marks_object, info, h]
    simp
  | list name op xs i =>
    rw [mark, info] at h
    rw [setMark, setInfo, marks_list, marks_list, info, h]
    simp

theorem keyed_setMark {n : Node} (m : Option Nat) (h : n.Keyed) : (n.setMark m).Keyed := by
  cases n with
  | primitive text i => exact h
  | object name ps i => exact h
  | list name op xs i => exact h

/-! ## Marked nodes -/

/-- A node with its mark, if it has one. -/
def withMark? (n : Node) : Option (Nat × Node) := n.mark.map (·, n)

/-- The marked nodes of a tree with their marks, children before their parent. -/
def marked (n : Node) : List (Nat × Node) := n.gather withMark?

theorem marks_eq_map (n : Node) : n.marks = n.marked.map Prod.fst := by
  rw [marks, marked, gather, List.map_filterMap]
  refine congrArg (List.filterMap · _) (funext fun p => ?_)
  cases h : p.2.mark <;> simp [withMark?, h]

theorem withMark?_of_unmarked {n : Node} (h : n.mark = none) : n.withMark?.toList = [] := by
  rw [withMark?, h]
  rfl

theorem length_withMark? (n : Node) : n.withMark?.toList.length = n.mark.toList.length := by
  cases h : n.mark <;> simp [withMark?, h]

theorem marked_object (name : String) (ps : List (String × Node)) (i : NodeInfo) :
    (object name ps i).marked
      = (ps.flatMap fun p => p.2.marked) ++ (object name ps i).withMark?.toList :=
  gather_object withMark? name ps i

theorem marked_list (name : String) (op : Bool) (xs : List Node) (i : NodeInfo) :
    (list name op xs i).marked = xs.flatMap marked ++ (list name op xs i).withMark?.toList :=
  gather_list withMark? name op xs i

theorem marked_primitive (text : String) (i : NodeInfo) :
    (primitive text i).marked = (primitive text i).withMark?.toList :=
  gather_primitive withMark? text i

theorem marked_object_of_unmarked {i : NodeInfo} (h : i.mark = none) (name : String)
    (ps : List (String × Node)) : (object name ps i).marked = ps.flatMap fun p => p.2.marked := by
  rw [marked_object, withMark?_of_unmarked (n := object name ps i) h, List.append_nil]

theorem marked_list_of_unmarked {i : NodeInfo} (h : i.mark = none) (name : String) (op : Bool)
    (xs : List Node) : (list name op xs i).marked = xs.flatMap marked := by
  rw [marked_list, withMark?_of_unmarked (n := list name op xs i) h, List.append_nil]

theorem marked_setMark {n : Node} (h : n.mark = none) (k : Nat) :
    (n.setMark (some k)).marked = n.marked ++ [(k, n.setMark (some k))] := by
  cases n with
  | primitive text i =>
    rw [marked_primitive, withMark?_of_unmarked h, setMark, setInfo, marked_primitive]
    rfl
  | object name ps i =>
    rw [marked_object_of_unmarked (i := i) h, setMark, setInfo, marked_object]
    rfl
  | list name op xs i =>
    rw [marked_list_of_unmarked (i := i) h, setMark, setInfo, marked_list]
    rfl

end ConfigScript.Node
