import ConfigScript.Proofs.Macro.Known
import ConfigScript.Proofs.Macro.Slots

/-! # The slots of a template

The parameters of a template under construction start with `self` for the function kinds, and its
list of shapes is made when a collection first takes its name from a parameter. Each operation
keeps both in step, so that a template that is not invalid becomes a macro whenever its operations
are found again, and that macro has a slot for each parameter. -/

namespace ConfigScript

/-- The argument that an edit uses. -/
def Edit.index? : Edit → Option Nat
  | .value _ i => some i
  | .rename _ i => some i
  | .call _ _ => none

/-- Whether an edit makes a name of an argument, which then has to be a primitive. -/
def Edit.renames (i : Nat) : Edit → Bool
  | .rename _ j => j == i
  | _ => false

@[simp] theorem Edit.index?_moveTo (path : Path) (e : Edit) :
    (e.moveTo path).index? = e.index? := by
  cases e <;> rfl

@[simp] theorem Edit.renames_moveTo (i : Nat) (path : Path) (e : Edit) :
    (e.moveTo path).renames i = e.renames i := by
  cases e <;> rfl

namespace Template

variable {t : Template}

/-- The templates that come up while a macro is read. -/
inductive Reachable : Template → Prop
  | begin (start : Nat) (name : String) (kind : MacroKind) :
    Reachable (Template.begin start name kind)
  | invalidate {t : Template} (h : Reachable t) : Reachable t.invalidate
  | addParam {t : Template} (h : Reachable t) (name : String) (default : Option Node)
    (position : Nat) : Reachable (t.addParam name default position).1
  | resolveParam {t t' : Template} {n n' : Node} {rs : List Report} (h : Reachable t)
    (hr : t.resolveParam? n = some (n', t', rs)) : Reachable t'
  | deferCall {t : Template} (h : Reachable t) (m : Macro) (n : Node) :
    Reachable (t.deferCall m n).2

/-- The parameters without `self`. -/
def own (t : Template) : List Param := if t.kind.isFunction then t.params.drop 1 else t.params

/-- What the macro will show of itself. -/
def head (t : Template) : MacroHead :=
  ⟨t.signature, t.own, t.inferences.map (padShapes t.params.length)⟩

/-- The shapes recorded for a parameter. -/
def shapeAt (t : Template) (i : Nat) : ShapeSet := ((t.inferences.getD [])[i]?).getD .any

/-- The slots for the parameters, where edits make names of some of them. -/
def slots (t : Template) (edits : List Edit) : List ArgumentSlot :=
  t.params.mapIdx fun i p => (p.name, if edits.any (·.renames i) then .primitive else .any)

/-- What the operations on a template keep. -/
structure Sound (t : Template) : Prop where
  self : t.kind.isFunction = true → t.params = ⟨"self", none⟩ :: t.own
  bare : t.kind.takesParameters = false → t.own = []
  names : (t.params.map Param.name).Nodup
  optionals : t.invalid = false → t.kind.isPositional = true →
    optionalLast t.params = true ∧ t.optionalSeen = t.params.any Param.isOptional
  indices : ∀ q ∈ t.pending, ∀ i ∈ q.2.index?, i < t.params.length
  length : (t.inferences.getD []).length ≤ t.params.length
  shapes : t.invalid = false → ∀ i < t.params.length,
    t.shapeAt i = if t.pending.any (·.2.renames i) then .primitive else .any

/-! ## Starting and adding parameters -/

theorem optionalLast_concat (ps : List Param) (p : Param) :
    optionalLast (ps ++ [p])
      = (optionalLast ps && (p.isOptional || !ps.any Param.isOptional)) := by
  induction ps with
  | nil => cases hp : p.isOptional <;> simp [optionalLast, hp]
  | cons q ps ih =>
    cases hq : q.isOptional with
    | true => simp [optionalLast, hq]
    | false =>
      have hdrop (qs : List Param) : optionalLast (q :: qs) = optionalLast qs := by
        simp [optionalLast, hq]
      rw [List.cons_append, hdrop, hdrop, ih, List.any_cons, hq, Bool.false_or]

theorem shapeAt_of_le {i : Nat} (h : (t.inferences.getD []).length ≤ i) : t.shapeAt i = .any := by
  rw [shapeAt, List.getElem?_eq_none h, Option.getD_none]

theorem any_renames_of_le {pending : List (Nat × Edit)} {n i : Nat}
    (h : ∀ q ∈ pending, ∀ i ∈ q.2.index?, i < n) (hi : n ≤ i) :
    pending.any (·.2.renames i) = false := by
  rw [List.any_eq_false]
  intro q hq hr
  have hlt := h q hq i (by
    cases he : q.2 with
    | rename path j =>
      rw [he, Edit.renames, beq_iff_eq] at hr
      rw [hr]
      rfl
    | value | call => rw [he] at hr; cases hr)
  omega

theorem begin_sound (start : Nat) (name : String) (kind : MacroKind) :
    (Template.begin start name kind).Sound := by
  refine ⟨fun hf => ?_, fun hb => ?_, ?_, fun _ _ => ?_, ?_, ?_, fun _ i _ => ?_⟩
  · have hkind : kind.isFunction = true := hf
    simp [Template.begin, own, Template.kind, hkind]
  · cases hf : kind.isFunction <;> simp [Template.begin, own, Template.kind, hf]
  · cases hf : kind.isFunction <;> simp [Template.begin, hf]
  · cases hf : kind.isFunction <;>
      simp [Template.begin, hf, optionalLast, Param.isOptional]
  · simp [Template.begin]
  · simp [Template.begin]
  · simp [Template.begin, shapeAt]

theorem Sound.invalidate (h : t.Sound) : t.invalidate.Sound where
  self := h.self
  bare := h.bare
  names := h.names
  optionals hi := nomatch hi
  indices := h.indices
  length := h.length
  shapes hi := nomatch hi

/-- The template with one more parameter, which is misplaced if it is required but an optional one
came before. -/
def extend (t : Template) (p : Param) : Template :=
  { t with
    params := t.params ++ [p]
    optionalSeen := t.optionalSeen || (t.kind.isPositional && p.default.isSome)
    invalid := t.invalid || (t.kind.isPositional && p.default.isNone && t.optionalSeen) }

theorem addParam_cases (t : Template) (name : String) (default : Option Node) (position : Nat) :
    (t.addParam name default position).1 = t.invalidate
      ∨ t.kind.takesParameters = true ∧ (∀ p ∈ t.params, p.name ≠ name)
        ∧ (t.addParam name default position).1 = t.extend ⟨name, default⟩ := by
  unfold Template.addParam
  split
  · exact .inl rfl
  · rename_i hconstant
    split
    · exact .inl rfl
    · rename_i haccess
      split
      · exact .inl rfl
      · rename_i hnew
        refine .inr ⟨MacroKind.takesParameters_iff.mpr ⟨hconstant, haccess⟩, ?_, rfl⟩
        simpa [paramIndex?, List.findIdx?_eq_none_iff] using hnew

theorem Sound.extend (h : t.Sound) (ht : t.kind.takesParameters = true) {p : Param}
    (hp : ∀ q ∈ t.params, q.name ≠ p.name) : (t.extend p).Sound where
  self hf := by
    have hfunction : t.kind.isFunction = true := hf
    have hown : (t.extend p).own = (t.params ++ [p]).drop 1 := if_pos hfunction
    rw [hown, Template.extend, h.self hfunction]
    rfl
  bare hb := by
    have hkind : t.kind.takesParameters = false := hb
    rw [ht] at hkind
    cases hkind
  names := by
    simp only [Template.extend, List.map_append, List.map_singleton]
    refine List.nodup_append.mpr ⟨h.names, List.nodup_singleton _, ?_⟩
    rintro _ hq _ hname rfl
    obtain ⟨q, hq, hqp⟩ := List.mem_map.mp hq
    exact hp q hq (hqp.trans (List.mem_singleton.mp hname))
  optionals hv hpos := by
    have hpositional : t.kind.isPositional = true := hpos
    simp only [Template.extend, Bool.or_eq_false_iff, hpositional, Bool.true_and] at hv ⊢
    obtain ⟨hlast, hseen⟩ := h.optionals hv.1 hpositional
    rw [optionalLast_concat, hlast, hseen, List.any_append]
    refine ⟨?_, by simp [Param.isOptional]⟩
    rw [hseen] at hv
    cases hd : p.default <;> simp_all [Param.isOptional]
  indices q hq i hi := by
    simp only [Template.extend, List.length_append, List.length_singleton]
    exact Nat.lt_succ_of_lt (h.indices q hq i hi)
  length := by
    simp only [Template.extend, List.length_append, List.length_singleton]
    exact Nat.le_succ_of_le h.length
  shapes hv i hi := by
    simp only [Template.extend, Bool.or_eq_false_iff, List.length_append, List.length_singleton]
      at hv hi
    rcases Nat.lt_succ_iff_lt_or_eq.mp hi with hlt | rfl
    · exact h.shapes hv.1 i hlt
    · have hrenames : (t.extend p).pending.any (·.2.renames t.params.length) = false :=
        any_renames_of_le h.indices le_rfl
      rw [hrenames]
      exact shapeAt_of_le h.length

theorem Sound.addParam (h : t.Sound) (name : String) (default : Option Node) (position : Nat) :
    (t.addParam name default position).1.Sound := by
  rcases addParam_cases t name default position with hu | ⟨ht, hnew, hu⟩
  · rw [hu]
    exact h.invalidate
  · rw [hu]
    exact h.extend ht hnew

/-! ## Referring to parameters -/

theorem length_padShapes {n : Nat} {shapes : List ShapeSet} (h : shapes.length ≤ n) :
    (padShapes n shapes).length = n := by
  rw [padShapes, List.length_append, List.length_replicate]
  omega

theorem getD_padShapes (n : Nat) (shapes : List ShapeSet) (i : Nat) :
    ((padShapes n shapes)[i]?).getD .any = (shapes[i]?).getD .any := by
  rw [padShapes]
  by_cases hi : i < shapes.length
  · rw [List.getElem?_append_left hi]
  · rw [List.getElem?_append_right (by omega), List.getElem?_eq_none (l := shapes) (by omega),
      List.getElem?_replicate]
    split <;> rfl

/-- Taking a name from a parameter changes the list of shapes only. A parameter that may be anything
then has to be a primitive. -/
theorem narrow_spec {i : Nat} (hi : i < t.params.length) (p : Param)
    (hlength : (t.inferences.getD []).length ≤ t.params.length) :
    ∃ shapes, (t.narrow i p .primitive).1 = { t with inferences := some shapes }
      ∧ shapes.length = t.params.length
      ∧ (t.shapeAt i = .any ∨ t.shapeAt i = .primitive → ∀ j,
        (shapes[j]?).getD .any = if j = i then .primitive else t.shapeAt j) := by
  unfold narrow
  simp only [getD_padShapes]
  have hpad := length_padShapes hlength
  have hcurrent : ((t.inferences.getD [])[i]?).getD .any = t.shapeAt i := rfl
  rw [hcurrent]
  split
  · rename_i hskip
    refine ⟨_, rfl, hpad, fun hs j => ?_⟩
    have hprimitive : t.shapeAt i = .primitive := by
      rcases hs with hs | hs
      · rw [hs] at hskip
        exact absurd hskip (by decide)
      · exact hs
    rw [getD_padShapes]
    split
    · rename_i hj
      rw [hj]
      exact hprimitive
    · rfl
  · rename_i hnarrow
    refine ⟨_, rfl, (List.length_set ..).trans hpad, fun hs j => ?_⟩
    have hany : t.shapeAt i = .any := by
      rcases hs with hs | hs
      · exact hs
      · rw [hs] at hnarrow
        exact absurd (by decide) hnarrow
    rw [hany, List.getElem?_set]
    by_cases hj : j = i
    · rw [if_pos hj.symm, if_pos hj, if_pos (by omega)]
      rfl
    · rw [if_neg (Ne.symm hj), if_neg hj, getD_padShapes]
      rfl

theorem Sound.record (h : t.Sound) {pending : List (Nat × Edit)} {nextMark : Nat}
    {inferences : Option (List ShapeSet)}
    (hindices : ∀ q ∈ pending, ∀ i ∈ q.2.index?, i < t.params.length)
    (hlength : (inferences.getD []).length ≤ t.params.length)
    (hshapes : t.invalid = false → ∀ i < t.params.length, ((inferences.getD [])[i]?).getD .any
      = if pending.any (·.2.renames i) then .primitive else .any) :
    Sound { t with pending, nextMark, inferences } :=
  ⟨h.self, h.bare, h.names, h.optionals, hindices, hlength, hshapes⟩

theorem Sound.indices_concat (h : t.Sound) {e : Edit} (he : ∀ i ∈ e.index?, i < t.params.length)
    (k : Nat) : ∀ q ∈ t.pending ++ [(k, e)], ∀ i ∈ q.2.index?, i < t.params.length := by
  intro q hq i hi
  rcases List.mem_append.mp hq with hq | hq
  · exact h.indices q hq i hi
  · rw [List.mem_singleton.mp hq] at hi
    exact he i hi

theorem Sound.mark (h : t.Sound) (n : Node) {e : Edit}
    (hindex : ∀ i ∈ e.index?, i < t.params.length) (hrenames : ∀ i, e.renames i = false) :
    (t.mark n e).2.Sound := by
  refine h.record (h.indices_concat hindex t.nextMark) h.length fun hv i hi => ?_
  simp only [List.any_append, List.any_cons, List.any_nil, hrenames, Bool.or_false]
  exact h.shapes hv i hi

theorem Sound.rename (h : t.Sound) (hv : t.invalid = false) (n : Node) {i : Nat}
    (hi : i < t.params.length) (p : Param) :
    ((t.narrow i p .primitive).1.mark n (.rename [] i)).2.Sound := by
  obtain ⟨shapes, hu, hlength, hshapes⟩ := narrow_spec hi p h.length
  have hslot : t.shapeAt i = .any ∨ t.shapeAt i = .primitive := by
    rw [h.shapes hv i hi]
    split
    · exact .inr rfl
    · exact .inl rfl
  have hindex : ∀ j ∈ (Edit.rename [] i).index?, j < t.params.length :=
    fun j hj => Option.some.inj hj ▸ hi
  rw [hu]
  refine h.record (h.indices_concat hindex t.nextMark) hlength.le fun _ j hj => ?_
  refine (hshapes hslot j).trans ?_
  have hnew : (Edit.rename [] i).renames j = (i == j) := rfl
  simp only [List.any_append, List.any_cons, List.any_nil, Bool.or_false, hnew]
  by_cases hji : j = i
  · simp [hji]
  · have hne : (i == j) = false := beq_eq_false_iff_ne.mpr (Ne.symm hji)
    rw [if_neg hji, h.shapes hv j hj, hne, Bool.or_false]

theorem Sound.narrow (h : t.Sound) (hv : t.invalid = true) {i : Nat} (hi : i < t.params.length)
    (p : Param) : (t.narrow i p .primitive).1.Sound := by
  obtain ⟨shapes, hu, hlength, -⟩ := narrow_spec hi p h.length
  rw [hu]
  refine h.record h.indices hlength.le fun hvalid => ?_
  rw [hv] at hvalid
  cases hvalid

theorem Sound.resolveParam (h : t.Sound) {n n' : Node} {t' : Template} {rs : List Report}
    (hr : t.resolveParam? n = some (n', t', rs)) : t'.Sound := by
  unfold Template.resolveParam? at hr
  split at hr
  · cases hr
  · rename_i p i hfind
    have hi : i < t.params.length := by
      have hget := List.mem_zipIdx_iff_getElem?.mp (List.mem_of_find?_eq_some hfind)
      exact (List.getElem?_eq_some_iff.mp hget).1
    cases hp : n.isPrimitive with
    | true =>
      simp only [hp, if_true] at hr
      split at hr
      · cases hr
        exact h
      · cases hr
        exact h.mark n (fun j hj => Option.some.inj hj ▸ hi) fun _ => rfl
    | false =>
      obtain ⟨shapes, hu, -⟩ := narrow_spec hi p h.length
      have hinvalid : (t.narrow i p .primitive).1.invalid = t.invalid := by rw [hu]
      simp only [hp, Bool.false_eq_true, if_false] at hr
      split at hr
      · rename_i hv
        cases hr
        exact h.narrow (hinvalid ▸ hv) hi p
      · rename_i hv
        cases hr
        exact h.rename (hinvalid ▸ Bool.eq_false_iff.mpr hv) n hi p

/-- Every operation keeps a template sound. -/
theorem Reachable.sound (h : t.Reachable) : t.Sound := by
  induction h with
  | begin start name kind => exact begin_sound start name kind
  | invalidate _ ih => exact ih.invalidate
  | addParam _ name default position ih => exact ih.addParam name default position
  | resolveParam _ hr ih => exact ih.resolveParam hr
  | deferCall _ m n ih => exact ih.mark n (by simp [Edit.index?]) fun _ => rfl

/-! ## Finishing -/

theorem checkParams_of_nodup {ps : List Param} (h : (ps.map Param.name).Nodup) :
    checkParams ps = .ok () := by
  unfold checkParams
  split
  · rfl
  · rename_i p i hfind
    obtain ⟨hi, hp⟩ : ∃ hi : i < ps.length, ps[i] = p :=
      List.getElem?_eq_some_iff.mp
        (List.mem_zipIdx_iff_getElem?.mp (List.mem_of_find?_eq_some hfind))
    subst hp
    have hany := List.find?_some hfind
    obtain ⟨q, hq, hname⟩ := List.any_eq_true.mp hany
    obtain ⟨j, hj, rfl⟩ := List.mem_take_iff_getElem.mp hq
    rw [List.Nodup, List.pairwise_map, List.pairwise_iff_getElem] at h
    have hji : j < i := by omega
    exact absurd (eq_of_beq hname) (h j i (by omega) hi hji)

theorem any_locate (f : Edit → Bool) (hf : ∀ path e, f (Edit.moveTo path e) = f e)
    (pending : List (Nat × Edit)) (nodes : List (Path × Node)) :
    ((locate pending nodes).1.any f || (locate pending nodes).2.any fun q => f q.2)
      = pending.any fun q => f q.2 := by
  induction nodes generalizing pending with
  | nil => rfl
  | cons node rest ih =>
    obtain ⟨path, n⟩ := node
    rw [locate]
    cases hfound : n.mark.bind fun m => pending.find? (·.1 == m) with
    | none => exact ih pending
    | some q =>
      obtain ⟨m, -, hfind⟩ := Option.bind_eq_some_iff.mp hfound
      obtain ⟨hq, before, after, rfl, hbefore⟩ := List.find?_eq_some_iff_append.mp hfind
      obtain rfl := eq_of_beq hq
      have herase : (before ++ q :: after).eraseP (fun r => r.1 == q.1) = before ++ after := by
        rw [List.eraseP_append_right _ (by simpa using hbefore), List.eraseP_cons_of_pos (by simp)]
      simp only [herase, List.any_cons, hf, Bool.or_assoc, ih, List.any_append]
      exact Bool.or_left_comm _ _ _

theorem own_sublist (t : Template) : t.own.Sublist t.params := by
  rw [own]
  split
  · exact List.drop_sublist 1 t.params
  · exact List.Sublist.refl _

theorem Sound.optionalLast_own (h : t.Sound) : optionalLast t.own = optionalLast t.params := by
  cases hf : t.kind.isFunction with
  | false => rw [own, hf, if_neg Bool.false_ne_true]
  | true => rw [h.self hf]; rfl

/-- A sound template that is not invalid passes the checks of a finished macro. -/
theorem Sound.checked (h : t.Sound) (hv : t.invalid = false) :
    checkParams t.head.params = .ok () ∧ Macro.checkHead t.head = .ok () := by
  refine ⟨checkParams_of_nodup (h.names.sublist (t.own_sublist.map Param.name)), ?_⟩
  have hbare : (!t.kind.takesParameters && !t.own.isEmpty) = false := by
    cases ht : t.kind.takesParameters with
    | true => rfl
    | false => rw [h.bare ht]; rfl
  have hlast : (t.kind.isPositional && !optionalLast t.own) = false := by
    cases hp : t.kind.isPositional with
    | true => rw [h.optionalLast_own, (h.optionals hv hp).1]; rfl
    | false => rfl
  unfold Macro.checkHead
  simp only
  rw [if_neg (by rw [Bool.not_eq_true]; exact hbare),
    if_neg (by rw [Bool.not_eq_true]; exact hlast)]

/-- What is said of operations that are not found again. -/
def unresolved (t : Template) (left : List (Nat × Edit)) : Report :=
  Report.errorAt ("Unresolved macro operation: "
    ++ String.intercalate ", " (left.map fun q => q.2.action)) (some t.start)

theorem Sound.finish_eq (h : t.Sound) (hv : t.invalid = false) (body : Node) :
    t.finish body =
      match locate t.pending body.postOrder with
      | (edits, []) => (some (.template t.head body.clearMarks edits), [])
      | (_, left) => (none, [t.unresolved left]) := by
  obtain ⟨hparams, hhead⟩ := h.checked hv
  have hcheck : (do checkParams t.head.params; Macro.checkHead t.head) = .ok () := by
    rw [hparams]
    exact hhead
  rw [finish, if_neg (by simp [hv])]
  generalize locate t.pending body.postOrder = found
  obtain ⟨edits, left⟩ := found
  cases left with
  | cons q left => rfl
  | nil =>
    simp only [head, own] at hcheck ⊢
    simp only [List.isEmpty_nil, Bool.not_true, Bool.false_eq_true, if_false]
    rw [hcheck]

theorem Sound.argumentNames (h : t.Sound) :
    t.head.argumentNames = t.params.map Param.name := by
  have hnames : t.head.argumentNames
      = (if t.kind.isFunction then ["self"] else []) ++ t.own.map Param.name := rfl
  rw [hnames]
  cases hf : t.kind.isFunction with
  | false => rw [own, hf, if_neg Bool.false_ne_true, if_neg Bool.false_ne_true, List.nil_append]
  | true =>
    rw [if_pos rfl, h.self hf]
    rfl

theorem Sound.head_shapes (h : t.Sound) :
    t.head.shapes = t.params.mapIdx fun i _ => t.shapeAt i := by
  have harity : t.head.arity = t.params.length := by
    rw [← length_argumentNames, h.argumentNames, List.length_map]
  have hpad : t.head.shapes = (t.inferences.map (padShapes t.params.length)).getD
      (List.replicate t.head.arity .any) := rfl
  have hlength : t.head.shapes.length = t.params.length := by
    rw [hpad, harity]
    cases hi : t.inferences with
    | none => exact List.length_replicate
    | some shapes => exact length_padShapes (by simpa [hi] using h.length)
  refine List.ext_getElem (by rw [hlength, List.length_mapIdx]) fun i hi _ => ?_
  have hget : (t.head.shapes[i]?).getD .any = t.shapeAt i := by
    rw [hpad, shapeAt]
    cases t.inferences with
    | none =>
      rw [Option.map_none, Option.getD_none, List.getElem?_replicate]
      split <;> rfl
    | some shapes => exact getD_padShapes _ shapes i
  rw [List.getElem?_eq_getElem hi, Option.getD_some] at hget
  rw [hget, List.getElem_mapIdx]

theorem Sound.lined (h : t.Sound) (hv : t.invalid = false) {edits : List Edit}
    (hedits : ∀ i, edits.any (·.renames i) = t.pending.any (·.2.renames i)) :
    t.head.Lined (t.slots edits) := by
  refine .of_shapes (h.checked hv).2 ?_ ?_
  · rw [h.argumentNames]
    refine List.ext_getElem (by simp [slots]) fun i _ _ => ?_
    simp [slots]
  · rw [h.head_shapes]
    refine List.ext_getElem (by simp [slots]) fun i hi _ => ?_
    rw [List.length_mapIdx] at hi
    simp only [slots, List.getElem_map, List.getElem_mapIdx, h.shapes hv i hi, hedits]

/-- The macro that a sound template becomes has the slots of its parameters, and its edits use
arguments that are there. -/
theorem Sound.finish_some (h : t.Sound) {body : Node} {m : Macro} {rs : List Report}
    (hm : t.finish body = (some m, rs)) :
    m.head.Lined (t.slots m.edits)
      ∧ ∀ e ∈ m.edits, ∀ i ∈ e.index?, i < t.params.length := by
  have hv : t.invalid = false := by
    rw [← Bool.not_eq_true]
    intro hv
    rw [finish, if_pos hv] at hm
    cases hm
  rw [h.finish_eq hv] at hm
  split at hm
  · rename_i edits hfound
    obtain rfl := Option.some.inj (Prod.mk.inj hm).1
    have hlocate (i : Nat) : edits.any (·.renames i) = t.pending.any (·.2.renames i) := by
      have hany := any_locate (·.renames i) (Edit.renames_moveTo i) t.pending body.postOrder
      rwa [hfound, List.any_nil, Bool.or_false] at hany
    refine ⟨h.lined hv hlocate, fun e he i hi => ?_⟩
    have hmem : e ∈ (locate t.pending body.postOrder).1 := by
      rw [hfound]
      exact he
    obtain ⟨k, f, path, hq, rfl⟩ := mem_locate hmem
    rw [Edit.index?_moveTo] at hi
    exact h.indices (k, f) hq i hi
  · cases hm

end Template

/-- Arguments, shapes and recorded indices line up. A macro that is built by any calls has the slots
that they declare; and a template, after any operations, has only recorded indices of its
parameters. If it is not invalid, neither check of a finished macro fails, so that it becomes a
macro just if all its operations are found again. That macro has a slot for each parameter, and at
every call an argument for each index. -/
theorem slots_line_up :
    (∀ name kind calls m, (MacroBuilder.after name kind calls).Makes m →
      m.head.Lined (MacroBuilder.declaredSlots kind calls))
    ∧ ∀ t : Template, t.Reachable →
      (∀ q ∈ t.pending, ∀ i ∈ q.2.index?, i < t.params.length)
      ∧ (t.invalid = false →
        checkParams t.head.params = .ok () ∧ Macro.checkHead t.head = .ok ()
        ∧ ∀ body, t.finish body =
          match Template.locate t.pending body.postOrder with
          | (edits, []) => (some (.template t.head body.clearMarks edits), [])
          | (_, left) => (none, [t.unresolved left]))
      ∧ ∀ body m rs, t.finish body = (some m, rs) →
        m.head.Lined (t.slots m.edits)
        ∧ ∀ call args rs, m.head.bind call = (some args, rs) →
          args.length = t.params.length ∧ ∀ e ∈ m.edits, ∀ i ∈ e.index?, i < args.length := by
  refine ⟨fun name kind calls m hm => hm.lined, fun t ht => ?_⟩
  have hs := ht.sound
  refine ⟨hs.indices, fun hv => ⟨(hs.checked hv).1, (hs.checked hv).2, hs.finish_eq hv⟩, ?_⟩
  intro body m rs hm
  obtain ⟨hlined, hindices⟩ := hs.finish_some hm
  refine ⟨hlined, fun call args rs hb => ?_⟩
  have hlength : args.length = t.params.length := by
    rw [(hlined.checked call args rs hb).1, Template.slots, List.length_mapIdx]
  exact ⟨hlength, fun e he i hi => hlength ▸ hindices e he i hi⟩

/-- The template of a list function whose body takes its name from the parameter `tag`. -/
def Template.tagging : Template :=
  { Template.begin 0 "wrap" .listFn with
    params := [⟨"self", none⟩, ⟨"tag", none⟩]
    pending := [(0, .rename [] 1)]
    nextMark := 1
    inferences := some [.any, .primitive] }

/-- A macro whose list of shapes was made for a parameter behind one without a restriction, and one
that takes a name from its parameter: neither shape is that of `self`. -/
theorem slots_line_up_behind_self :
    (MacroHead.mk ⟨"get", .operationFn⟩ [⟨"at", none⟩, ⟨"or", some (.value "0")⟩]
        (some [.collection, .any, .primitive])).Lined
      [("self", .collection), ("at", .any), ("or", .primitive)]
    ∧ (MacroHead.mk ⟨"wrap", .listFn⟩ [⟨"tag", none⟩] (some [.any, .primitive])).Lined
      [("self", .any), ("tag", .primitive)]
    ∧ (MacroHead.mk ⟨"wrap", .listFn⟩ [⟨"tag", none⟩] (some [.any, .primitive])).arguments
        (.list "" false [.value "x", .list "" false [.list "" false [] {}] {}] {})
      = (none, [mismatch ("tag", .primitive) (.list "" false [] {})])
    ∧ Template.tagging.invalid = false ∧ Macro.checkHead Template.tagging.head = .ok ()
    ∧ Template.tagging.finish (.list "tag" false [] {})
      = (none, [Template.tagging.unresolved [(0, .rename [] 1)]]) := by
  have hcalls : (MacroBuilder.after "get" .operationFn
      [.param "at" none .any, .param "or" (some (.value "0")) .primitive,
        .inferSelf .collection]).Makes
      (.native ⟨⟨"get", .operationFn⟩, [⟨"at", none⟩, ⟨"or", some (.value "0")⟩],
        some [.collection, .any, .primitive]⟩ fun _ _ => .produced (.value "")) :=
    .inr ⟨_, rfl⟩
  have hreachable : Template.tagging.Reachable :=
    .resolveParam (n := .list "tag" false [] {})
      (.addParam (.begin 0 "wrap" .listFn) "tag" none 0) rfl
  have hfinish : Template.tagging.finish (.list "tag" false [] { mark := some 0 })
      = (some (.template ⟨⟨"wrap", .listFn⟩, [⟨"tag", none⟩], some [.any, .primitive]⟩
        (.list "tag" false [] {}) [.rename [] 1]), []) := rfl
  obtain ⟨-, hvalid, hfinished⟩ := slots_line_up.2 _ hreachable
  obtain ⟨-, hhead, hbody⟩ := hvalid rfl
  have hlined := (hfinished _ _ _ hfinish).1
  refine ⟨slots_line_up.1 _ _ _ _ hcalls, hlined, ?_, rfl, hhead, hbody _⟩
  exact (hlined.checked (.list "" false [.value "x", .list "" false [.list "" false [] {}] {}] {})
    [.value "x", .list "" false [] {}] [] rfl).2.2

end ConfigScript
