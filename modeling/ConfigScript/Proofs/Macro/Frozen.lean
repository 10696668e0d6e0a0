import ConfigScript.Proofs.Macro.Binding
import ConfigScript.Proofs.Macro.Evaluation
import ConfigScript.Proofs.Macro.Known
import ConfigScript.Proofs.Macro.Overload
import ConfigScript.Proofs.Macro.Search
import ConfigScript.Proofs.Node.Frame

/-! # Calls keep their outlines

A macro is chosen for a call by the outline of what stands in its brackets. The edits of a template
that run before a call stand at other places, so that none of them changes the outline of the
call: it still means the same macro when its turn comes, and that macro takes it. -/

namespace ConfigScript

open Expansion

/-! ## What is in the brackets -/

section

variable {kind : MacroKind} {call slot : Node} {group : List Macro} {m : Macro}

theorem SameOutline.of_outline {m n : Node} (h : m.outline = n.outline) : SameOutline m n := by
  cases m with
  | primitive text i =>
    cases n with
    | primitive text' j => exact ⟨rfl, rfl⟩
    | object name ps j => simp [Node.outline] at h
    | list name op xs j => simp [Node.outline] at h
  | object name ps i =>
    cases n with
    | primitive text' j => simp [Node.outline] at h
    | object name' qs j => exact ⟨congrArg some (Outline.object.inj h).2, rfl⟩
    | list name' op xs j => simp [Node.outline] at h
  | list name op xs i =>
    cases n with
    | primitive text' j => simp [Node.outline] at h
    | object name' ps j => simp [Node.outline] at h
    | list name' op' ys j => exact ⟨rfl, congrArg some (Outline.list.inj h).2.2⟩

theorem bracketed?_of_isFunction (hf : kind.isFunction = true) (call : Node) :
    kind.bracketed? call = call.child? (.index 1) := by
  rw [MacroKind.bracketed?, if_pos hf]
  cases call <;> rfl

theorem bracketed?_of_not_isFunction (hf : kind.isFunction = false) (call : Node) :
    kind.bracketed? call = some call := by
  rw [MacroKind.bracketed?, hf]
  rfl

theorem bracketed?_outline (h : slot.outline = call.outline)
    (hargs : kind.isFunction = true →
      (slot.child? (.index 1)).map Node.outline = (call.child? (.index 1)).map Node.outline) :
    (kind.bracketed? slot).map Node.outline = (kind.bracketed? call).map Node.outline := by
  cases hf : kind.isFunction with
  | true =>
    rw [bracketed?_of_isFunction hf, bracketed?_of_isFunction hf]
    exact hargs hf
  | false =>
    rw [bracketed?_of_not_isFunction hf, bracketed?_of_not_isFunction hf]
    exact congrArg some h

theorem child?_clearMarks_outline (step : Step) (n : Node) :
    (n.clearMarks.child? step).map Node.outline = (n.child? step).map Node.outline := by
  rw [Node.child?_clearMarks, Option.map_map]
  exact congrArg (Option.map · _) (funext Node.outline_clearMarks)

theorem items?_of_outline {self : Node} {rest : List Node} (h : slot.outline = call.outline)
    (hitems : call.items? = some (self :: rest)) :
    ∃ self rest, slot.items? = some (self :: rest) := by
  have hcount := (SameOutline.of_outline h).count
  rw [hitems] at hcount
  obtain ⟨xs, hxs, hlength⟩ := Option.map_eq_some_iff.mp hcount
  obtain ⟨x, ys, rfl⟩ := List.exists_cons_of_length_eq_add_one hlength
  exact ⟨x, ys, hxs⟩

/-- A search sees the outline of what stands in the brackets, and nothing else. -/
theorem searchGroup_congr_outline
    (h : (kind.bracketed? slot).map Node.outline = (kind.bracketed? call).map Node.outline)
    (group : List Macro) : searchGroup kind group slot = searchGroup kind group call := by
  by_cases hk : kind.takesParameters = true
  · rw [searchGroup_eq hk, searchGroup_eq hk]
    cases hs : kind.bracketed? slot with
    | none =>
      rw [hs] at h
      rw [Option.map_eq_none_iff.mp h.symm]
    | some x =>
      rw [hs] at h
      obtain ⟨y, hy, hxy⟩ := Option.map_eq_some_iff.mp h.symm
      rw [hy]
      exact chooseOverload_congr group (.of_outline hxy.symm)
  · exact searchGroup_congr_bare (by simpa using hk) group slot call

theorem ne_nil_of_found (h : (searchGroup kind group call).1 = some m) : group ≠ [] := by
  rintro rfl
  by_cases hk : kind.takesParameters = true
  · rw [searchGroup_eq hk] at h
    cases hb : kind.bracketed? call with
    | none => simp [hb] at h
    | some arg => simp [hb, chooseOverload, bestOf] at h
  · simp [searchGroup, hk] at h

theorem bind_of_found {s : Signature} (hs : ∀ n ∈ group, n.signature = s) (hkind : s.kind = kind)
    (hc : Macro.checkHead m.head = .ok ())
    (hself : kind = .access → ∃ self rest, call.items? = some (self :: rest))
    (h : (searchGroup kind group call).1 = some m) :
    (∃ args, (m.head.bind call).1 = some args) ∧ hasError (m.head.bind call).2 = false := by
  have hne := ne_nil_of_found h
  have hmem : m ∈ group := (searchGroup_spec kind (by simpa using hne) call).2 m h
  have hmk : m.kind = kind := (congrArg Signature.kind (hs m hmem)).trans hkind
  suffices hbind : ∃ args, (m.head.bind call).1 = some args by
    obtain ⟨args, hargs⟩ := hbind
    exact ⟨⟨args, hargs⟩, bind_quiet hargs⟩
  by_cases ht : kind.takesParameters = true
  · obtain ⟨-, n, hn, -⟩ := mem_bestFits_iff.mp
      ((searchGroup_fst_iff ht hne hs).mp h ▸ List.mem_singleton_self m)
    have hbound := bind_isSome (m := m) hc (by rwa [hmk]) call
    rw [hmk, hn] at hbound
    exact Option.isSome_iff_exists.mp hbound
  · rw [MacroKind.takesParameters_iff, not_and_or, not_not, not_not] at ht
    unfold MacroHead.bind
    rw [show m.head.signature.kind = kind from hmk]
    rcases ht with rfl | rfl
    · exact ⟨_, rfl⟩
    · obtain ⟨self, rest, hitems⟩ := hself rfl
      rw [hitems]
      exact ⟨_, rfl⟩

end

/-! ## Edits at other places -/

section

variable {args : List Node} {copy : Bool} {target n : Node}

theorem Edit.replace?_of_produced {e : Edit} (h : (e.apply args target copy).result = .produced n) :
    ∃ new, target.replace? e.path new = some n := by
  cases hslot : target.get? e.path with
  | none =>
    cases e with
    | value path i => simp [Edit.apply, show target.get? path = none from hslot, fault] at h
    | rename path i => simp [Edit.apply, show target.get? path = none from hslot, fault] at h
    | call path m => simp [Edit.apply, show target.get? path = none from hslot, fault] at h
  | some slot =>
    rw [Edit.apply_eq hslot] at h
    obtain ⟨new, -, hnew⟩ := andThen_result h
    refine ⟨new, ?_⟩
    unfold placeAt Node.replace at hnew
    cases hr : target.replace? e.path new with
    | none => simp [hr, fault] at hnew
    | some m =>
      rw [hr] at hnew
      simpa [produced] using hnew

/-- Edits that are not at or above a path leave the outline there as it is. -/
theorem applyEdits_outline {es : List Edit} {q : Path} (hes : ∀ e ∈ es, ¬e.path <+: q)
    (h : (applyEdits es args target copy).result = .produced n) :
    (n.get? q).map Node.outline = (target.get? q).map Node.outline := by
  induction es generalizing target with
  | nil =>
    rw [applyEdits] at h
    simp only [produced, MacroResult.produced.injEq] at h
    rw [h]
  | cons e es ih =>
    rw [applyEdits] at h
    obtain ⟨m, hm, hrest⟩ := andThen_result h
    obtain ⟨new, hnew⟩ := Edit.replace?_of_produced hm
    rw [List.forall_mem_cons] at hes
    rw [ih hes.2 hrest]
    exact Node.outline_replace? hnew hes.1

end

/-! ## The edits before a call -/

section

variable {pending : List (Nat × Edit)} {nodes : List (Path × Node)} {e : Edit} {es fs : List Edit}

/-- What is pending for a node, at its place. -/
def editAt? (pending : List (Nat × Edit)) (p : Path × Node) : Option Edit :=
  (pendingFor? pending p.2.mark).map (Edit.moveTo p.1)

theorem path_of_editAt? {p : Path × Node} (h : editAt? pending p = some e) :
    e.path = p.1 ∧ p.2.mark.isSome = true := by
  obtain ⟨f, hf, rfl⟩ := Option.map_eq_some_iff.mp h
  refine ⟨Edit.path_moveTo _ _, ?_⟩
  cases hm : p.2.mark with
  | none => simp [pendingFor?, hm] at hf
  | some k => rfl

theorem editsOf_split {R : Path × Node → Path × Node → Prop} (hn : nodes.Pairwise R)
    (h : editsOf pending nodes = es ++ e :: fs) : ∃ p ∈ nodes, editAt? pending p = some e
      ∧ ∀ f ∈ es, ∃ q ∈ nodes, R q p ∧ editAt? pending q = some f := by
  obtain ⟨first, second, rfl, hes, hrest⟩ := List.filterMap_eq_append_iff.mp h
  obtain ⟨skipped, p, later, rfl, -, hp, -⟩ := List.filterMap_eq_cons_iff.mp hrest
  have hmem : p ∈ skipped ++ p :: later := List.mem_append_right _ List.mem_cons_self
  refine ⟨p, List.mem_append_right _ hmem, hp, fun f hf => ?_⟩
  obtain ⟨q, hq, hqf⟩ := List.mem_filterMap.mp (hes ▸ hf)
  exact ⟨q, List.mem_append_left _ hq, (List.pairwise_append.mp hn).2.2 q hq p hmem, hqf⟩

end

end ConfigScript
