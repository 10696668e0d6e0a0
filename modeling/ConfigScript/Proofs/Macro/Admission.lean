import Mathlib.Data.List.Forall2
import ConfigScript.Proofs.Macro.Binding

/-! # What a native body is given

Native code takes its arguments apart without looking at their number or their shapes. It relies on
the declaration of its macro: whatever an argument is, what gets past binding and the check of
shapes is one node for each declared shape, and of that shape. -/

namespace ConfigScript

namespace MacroHead

/-- The number of nodes that the body works on. -/
def arity (h : MacroHead) : Nat := h.params.length + if h.signature.kind.isFunction then 1 else 0

/-- The shapes of these nodes; without inferences anything goes. -/
def shapes (h : MacroHead) : List ShapeSet := h.inferences.getD (List.replicate h.arity .any)

/-- A declaration that was checked, with a shape for each node. -/
structure Aligned (h : MacroHead) : Prop where
  checked : Macro.checkHead h = .ok ()
  length : h.shapes.length = h.arity

end MacroHead

/-- One node for each shape, and of that shape. -/
def Fits (shapes : List ShapeSet) (args : List Node) : Prop :=
  List.Forall₂ (fun s a => s.accepts a = true) shapes args

/-! ## Shapes -/

theorem Node.isPrimitive_eq (n : Node) : n.isPrimitive = (n.shape == .primitive) := by
  cases n with
  | primitive s i => rfl
  | object name props i => cases hn : name.isEmpty <;> simp only [shape, hn] <;> rfl
  | list name op items i => cases hn : name.isEmpty <;> cases op <;> simp only [shape, hn] <;> rfl

theorem Node.isObject_eq (n : Node) :
    n.isObject = (n.shape == .unnamedObject || n.shape == .namedObject) := by
  cases n with
  | primitive s i => rfl
  | object name props i => cases hn : name.isEmpty <;> simp only [shape, hn] <;> rfl
  | list name op items i => cases hn : name.isEmpty <;> cases op <;> simp only [shape, hn] <;> rfl

namespace ShapeSet

theorem accepts_any (n : Node) : any.accepts n = true := rfl

theorem accepts_primitive {n : Node} (h : primitive.accepts n = true) :
    ∃ s i, n = .primitive s i := by
  have hprimitive : primitive.accepts n = n.isPrimitive := by
    rw [accepts, Node.isPrimitive_eq]
    cases n.shape <;> decide
  rw [hprimitive] at h
  cases n with
  | primitive s i => exact ⟨s, i, rfl⟩
  | object | list => cases h

theorem accepts_object {n : Node} (h : object.accepts n = true) :
    ∃ name props i, n = .object name props i := by
  have hobject : object.accepts n = n.isObject := by
    rw [accepts, Node.isObject_eq]
    cases n.shape <;> decide
  rw [hobject] at h
  cases n with
  | object name props i => exact ⟨name, props, i, rfl⟩
  | primitive | list => cases h

theorem accepts_collection {n : Node} (h : collection.accepts n = true) :
    (∃ name props i, n = .object name props i) ∨ ∃ name op items i, n = .list name op items i := by
  have hprimitive : collection.accepts n = !n.isPrimitive := by
    rw [accepts, Node.isPrimitive_eq]
    cases n.shape <;> decide
  rw [hprimitive] at h
  cases n with
  | primitive s i => cases h
  | object name props i => exact .inl ⟨name, props, i, rfl⟩
  | list name op items i => exact .inr ⟨name, op, items, i, rfl⟩

theorem accepts_list_operation {n : Node} (h : (list.union operation).accepts n = true) :
    ∃ name op items i, n = .list name op items i := by
  have hlist : (list.union operation).accepts n = !(n.isPrimitive || n.isObject) := by
    rw [accepts, Node.isPrimitive_eq, Node.isObject_eq]
    cases n.shape <;> decide
  rw [hlist] at h
  cases n with
  | list name op items i => exact ⟨name, op, items, i, rfl⟩
  | primitive | object => cases h

end ShapeSet

variable {h : MacroHead} {arg : Node} {args : List Node}

/-! ## Numbers of arguments -/

theorem length_bindBracketed (hb : (bindBracketed h arg).1 = some args) :
    args.length = h.params.length := by
  have hlength := congrArg List.length (bindBracketed_eq_some hb)
  rwa [List.length_map, List.length_mapIdx] at hlength

theorem params_eq_nil_of_checkHead (hc : Macro.checkHead h = .ok ())
    (ht : h.signature.kind.takesParameters = false) : h.params = [] := by
  unfold Macro.checkHead at hc
  cases hp : h.params with
  | nil => rfl
  | cons p ps => simp [ht, hp] at hc

theorem length_bind (hc : Macro.checkHead h = .ok ()) (hb : (h.bind arg).1 = some args) :
    args.length = h.arity := by
  by_cases ht : h.signature.kind.takesParameters = true
  · cases harg : h.signature.kind.bracketed? arg with
    | none => simp [bind_of_unbracketed ht harg] at hb
    | some brackets =>
      rw [bind_of_bracketed ht harg] at hb
      obtain ⟨bound, hbound, rfl⟩ := Option.map_eq_some_iff.mp hb
      rw [List.length_append, self?_length harg, length_bindBracketed hbound, MacroHead.arity,
        Nat.add_comm]
  · have hparams := params_eq_nil_of_checkHead hc (Bool.eq_false_iff.mpr ht)
    unfold MacroHead.bind at hb
    split at hb
    · rename_i hkind
      obtain rfl := Option.some.inj hb
      simp [MacroHead.arity, hparams, hkind, MacroKind.isFunction]
    · rename_i hkind
      split at hb
      · obtain rfl := Option.some.inj hb
        simp [MacroHead.arity, hparams, hkind, MacroKind.isFunction]
      · simp at hb
    · exact absurd (MacroKind.takesParameters_iff.mpr ⟨‹_›, ‹_›⟩) ht

/-! ## The check of shapes -/

theorem shapeErrors_eq_nil {i : Nat} {pairs : List (ShapeSet × Node)}
    (he : h.shapeErrors i pairs = []) : ∀ p ∈ pairs, p.1.accepts p.2 = true := by
  induction pairs generalizing i with
  | nil => simp
  | cons p ps ih =>
    obtain ⟨expected, n⟩ := p
    rw [MacroHead.shapeErrors, List.append_eq_nil_iff] at he
    refine List.forall_mem_cons.mpr ⟨?_, ih he.2⟩
    by_contra hn
    simp [hn] at he

theorem fits_replicate_any (args : List Node) : Fits (List.replicate args.length .any) args := by
  induction args with
  | nil => exact .nil
  | cons a args ih => exact .cons (ShapeSet.accepts_any a) ih

/-- The arguments behind a check of shapes are those that were bound, of the shapes declared. -/
theorem fits_of_arguments {rs : List Report} (hl : h.Aligned)
    (ha : h.arguments arg = (some args, rs)) : Fits h.shapes args := by
  have hlength := hl.length
  unfold MacroHead.arguments at ha
  split at ha
  · simp at ha
  · rename_i bound ss hbind
    have hbound : bound.length = h.arity := length_bind hl.checked (by rw [hbind])
    split at ha
    · rename_i hnone
      obtain ⟨hsame, -⟩ := Prod.mk.inj ha
      obtain rfl := Option.some.inj hsame
      rw [MacroHead.shapes, hnone, Option.getD_none, ← hbound]
      exact fits_replicate_any _
    · rename_i shapes hsome
      have hshapes : h.shapes = shapes := by rw [MacroHead.shapes, hsome, Option.getD_some]
      rw [hshapes] at hlength ⊢
      obtain ⟨hchecked, -⟩ := Prod.mk.inj ha
      split at hchecked
      · rename_i hempty
        obtain rfl := Option.some.inj hchecked
        have haccepted := shapeErrors_eq_nil (List.isEmpty_iff.mp hempty)
        exact List.forall₂_iff_zip.mpr ⟨hlength.trans hbound.symm, fun hp => haccepted _ hp⟩
      · simp at hchecked

end ConfigScript
