import ConfigScript.Node.ShapeSet
import ConfigScript.Proofs.Node.Equality

/-! # What does not depend on information

Shapes, paths and replacements do not look at the information that nodes carry, so they give equal
values, up to information, on nodes that are equal up to information. -/

namespace ConfigScript.Node

theorem withoutInfo_setInfo (i : NodeInfo) (n : Node) :
    (n.setInfo i).withoutInfo = n.withoutInfo := by
  cases n with
  | primitive text j => rfl
  | object name props j => rfl
  | list name op items j => rfl

theorem withoutInfo_asMade (n : Node) : n.asMade.withoutInfo = n.withoutInfo :=
  withoutInfo_setInfo _ n

theorem withoutInfo_setPosition (p : Option Nat) (n : Node) :
    (n.setPosition p).withoutInfo = n.withoutInfo :=
  withoutInfo_setInfo _ n

theorem withoutInfo_setName (name : String) (n : Node) :
    (n.setName name).withoutInfo = n.withoutInfo.setName name := by
  cases n with
  | primitive text j => rfl
  | object name' props j => rfl
  | list name' op items j => rfl

theorem shape_withoutInfo (n : Node) : n.withoutInfo.shape = n.shape := by
  cases n with
  | primitive text j => rfl
  | object name props j => rfl
  | list name op items j => rfl

theorem items?_withoutInfo (n : Node) :
    n.withoutInfo.items? = n.items?.map (List.map withoutInfo) := by
  cases n with
  | primitive text j => rfl
  | object name props j => rfl
  | list name op items j => exact congrArg some (withoutInfoItems_eq items)

theorem properties?_withoutInfo (n : Node) :
    n.withoutInfo.properties? =
      n.properties?.map (List.map fun p => (p.1, p.2.withoutInfo)) := by
  cases n with
  | primitive text j => rfl
  | object name props j => exact congrArg some (withoutInfoProperties_eq props)
  | list name op items j => rfl

/-! ## Paths -/

theorem lookup_map {α β : Type} (f : α → β) (key : String) (ps : List (String × α)) :
    (ps.map fun p => (p.1, f p.2)).lookup key = (ps.lookup key).map f := by
  induction ps with
  | nil => rfl
  | cons p ps ih =>
    rw [List.map_cons, List.lookup_cons, List.lookup_cons]
    cases key == p.1 with
    | true => rfl
    | false => exact ih

theorem child?_withoutInfo (step : Step) (n : Node) :
    n.withoutInfo.child? step = (n.child? step).map withoutInfo := by
  cases step with
  | property key =>
    cases n with
    | primitive text j => rfl
    | object name props j =>
      rw [withoutInfo, withoutInfoProperties_eq]
      exact lookup_map withoutInfo key props
    | list name op items j => rfl
  | index k =>
    cases n with
    | primitive text j => rfl
    | object name props j => rfl
    | list name op items j =>
      rw [withoutInfo, withoutInfoItems_eq]
      exact List.getElem?_map

theorem get?_withoutInfo (path : Path) (n : Node) :
    n.withoutInfo.get? path = (n.get? path).map withoutInfo := by
  induction path generalizing n with
  | nil => rfl
  | cons step path ih =>
    rw [get?, get?, child?_withoutInfo]
    cases n.child? step with
    | none => rfl
    | some c => exact ih c

theorem modifyItem?_map {f g : Node → Option Node}
    (h : ∀ n, g n.withoutInfo = (f n).map withoutInfo) (k : Nat) (xs : List Node) :
    modifyItem? g k (xs.map withoutInfo) = (modifyItem? f k xs).map (List.map withoutInfo) := by
  induction xs generalizing k with
  | nil => cases k <;> rfl
  | cons x xs ih =>
    cases k with
    | zero =>
      rw [List.map_cons, modifyItem?, modifyItem?, h]
      cases f x <;> rfl
    | succ k =>
      rw [List.map_cons, modifyItem?, modifyItem?, ih]
      cases modifyItem? f k xs <;> rfl

theorem modifyProperty?_map {f g : Node → Option Node}
    (h : ∀ n, g n.withoutInfo = (f n).map withoutInfo) (key : String)
    (ps : List (String × Node)) :
    Properties.modify? key g (ps.map fun p => (p.1, p.2.withoutInfo))
      = (Properties.modify? key f ps).map (List.map fun p => (p.1, p.2.withoutInfo)) := by
  induction ps with
  | nil => rfl
  | cons p ps ih =>
    rw [List.map_cons, Properties.modify?, Properties.modify?, h, ih]
    split
    · cases f p.2 <;> rfl
    · cases Properties.modify? key f ps <;> rfl

theorem modify?_withoutInfo {f g : Node → Option Node}
    (h : ∀ n, g n.withoutInfo = (f n).map withoutInfo) (path : Path) (n : Node) :
    n.withoutInfo.modify? g path = (n.modify? f path).map withoutInfo := by
  induction path generalizing n with
  | nil => exact h n
  | cons step path ih =>
    cases step with
    | property key =>
      cases n with
      | primitive text j => rfl
      | object name props j =>
        rw [withoutInfo, withoutInfoProperties_eq, modify?, modify?, modifyProperty?_map ih]
        cases Properties.modify? key (modify? f path) props with
        | none => rfl
        | some qs => simp [withoutInfo, withoutInfoProperties_eq]
      | list name op items j => rfl
    | index k =>
      cases n with
      | primitive text j => rfl
      | object name props j => rfl
      | list name op items j =>
        rw [withoutInfo, withoutInfoItems_eq, modify?, modify?, modifyItem?_map ih]
        cases modifyItem? (modify? f path) k items with
        | none => rfl
        | some ys => simp [withoutInfo, withoutInfoItems_eq]

theorem replace?_withoutInfo (n : Node) (path : Path) (new : Node) :
    n.withoutInfo.replace? path new.withoutInfo = (n.replace? path new).map withoutInfo :=
  modify?_withoutInfo (fun _ => rfl) path n

end ConfigScript.Node
