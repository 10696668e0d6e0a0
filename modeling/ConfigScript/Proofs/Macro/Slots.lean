import ConfigScript.Proofs.Macro.Admission

/-! # A slot for each argument

A macro has a slot for each argument: a name and the shapes that it accepts. What is bound at a
call, what is checked and what is reported of it go slot by slot, whatever the macro was built
from, as long as its list of shapes was made for its own parameters. -/

namespace ConfigScript

/-- The name of an argument with the shapes that it may have. -/
abbrev ArgumentSlot := String × ShapeSet

namespace MacroHead

/-- The names of the arguments, with `self` in front for the function kinds. -/
def argumentNames (h : MacroHead) : List String :=
  (if h.signature.kind.isFunction then ["self"] else []) ++ h.params.map Param.name

/-- Where each argument comes from at a call: `self`, and for a parameter what is in the brackets
for it, or else its default. -/
def sources (h : MacroHead) (call : Node) : List (Option Node) :=
  (if h.signature.kind.isFunction then [h.signature.kind.self? call] else [])
    ++ h.params.mapIdx fun i p =>
      (h.signature.kind.supplied? ((h.signature.kind.bracketed? call).getD call) i p).or p.default

end MacroHead

/-- What is said of an argument that its slot does not accept. -/
def mismatch (s : ArgumentSlot) (arg : Node) : Report :=
  Report.error (s!"Type of argument '{s.1}' does not match its inferred "
    ++ s!"type.\n  Expected type: {s.2.text}\n  "
    ++ s!"Supplied argument: {(ShapeSet.ofShape arg.shape).text}")

/-- What is said of all arguments, each with its own slot. -/
def mismatches : List ArgumentSlot → List Node → List Report
  | s :: slots, arg :: args =>
    (if s.2.accepts arg then [] else [mismatch s arg]) ++ mismatches slots args
  | _, _ => []

/-- A macro with the given slots: its arguments have their names, its list of shapes is missing if
anything goes, and otherwise has one for each of them; and at every call each argument that is bound
is checked by its own slot. -/
structure MacroHead.Lined (h : MacroHead) (slots : List ArgumentSlot) : Prop where
  names : h.argumentNames = slots.map Prod.fst
  arity : slots.length = h.params.length + if h.signature.kind.isFunction then 1 else 0
  inferences : h.inferences = some (slots.map Prod.snd)
    ∨ h.inferences = none ∧ ∀ s ∈ slots, s.2 = .any
  checked : ∀ call args rs, h.bind call = (some args, rs) →
    args.length = slots.length ∧ args.map some = h.sources call
    ∧ h.arguments call
      = (if (mismatches slots args).isEmpty then some args else none, rs ++ mismatches slots args)

/-! ## Bound arguments -/

section

variable {h : MacroHead} {call : Node} {args : List Node} {slots : List ArgumentSlot}

theorem length_argumentNames (h : MacroHead) : h.argumentNames.length = h.arity := by
  rw [MacroHead.argumentNames, MacroHead.arity, List.length_append, List.length_map, Nat.add_comm]
  split <;> rfl

theorem bind_eq_sources (hc : Macro.checkHead h = .ok ()) (hb : (h.bind call).1 = some args) :
    args.map some = h.sources call := by
  by_cases ht : h.signature.kind.takesParameters = true
  · cases harg : h.signature.kind.bracketed? call with
    | none => simp [bind_of_unbracketed ht harg] at hb
    | some arg =>
      rw [bind_of_bracketed ht harg] at hb
      obtain ⟨bound, hbound, rfl⟩ := Option.map_eq_some_iff.mp hb
      rw [List.map_append, bindBracketed_eq_some hbound, MacroHead.sources, harg, Option.getD_some]
      congr 1
      by_cases hf : h.signature.kind.isFunction = true
      · obtain ⟨self, rest, hitems⟩ := exists_items_of_bracketed? hf harg
        rw [if_pos hf, self?_of_function hf hitems]
        rfl
      · rw [if_neg hf, MacroKind.self?, if_neg hf]
        rfl
  · have hparams := params_eq_nil_of_checkHead hc (Bool.eq_false_iff.mpr ht)
    rw [MacroHead.sources, hparams, List.mapIdx_nil, List.append_nil]
    unfold MacroHead.bind at hb
    split at hb
    · rename_i hkind
      obtain rfl := Option.some.inj hb
      rw [hkind]
      rfl
    · rename_i hkind
      split at hb
      · rename_i self rest hitems
        obtain rfl := Option.some.inj hb
        rw [hkind, if_pos (by rfl), self?_of_function rfl hitems]
        rfl
      · simp at hb
    · exact absurd (MacroKind.takesParameters_iff.mpr ⟨‹_›, ‹_›⟩) ht

/-! ## Checked arguments -/

theorem argumentNames_getElem? {i : Nat} (hi : i < h.arity) :
    h.argumentNames[i]? = some (h.argumentName i) := by
  have hparam (k : Nat) (hk : k < h.params.length) :
      (h.params.map Param.name)[k]? = some (((h.params[k]?).map Param.name).getD "self") := by
    rw [List.getElem?_map, List.getElem?_eq_getElem hk]
    rfl
  rw [MacroHead.arity] at hi
  unfold MacroHead.argumentNames MacroHead.argumentName
  by_cases hf : h.signature.kind.isFunction = true
  · rw [if_pos hf] at hi
    rw [if_pos hf, if_pos hf]
    cases i with
    | zero => rfl
    | succ i => exact hparam i (by omega)
  · rw [if_neg hf] at hi
    rw [if_neg hf, if_neg hf, List.nil_append]
    exact hparam i (by omega)

theorem shapeErrors_eq_mismatches {i : Nat} {shapes : List ShapeSet}
    (hlength : i + shapes.length ≤ h.arity) (args : List Node) :
    h.shapeErrors i (shapes.zip args)
      = mismatches ((h.argumentNames.drop i).zip shapes) args := by
  induction shapes generalizing i args with
  | nil => rw [List.zip_nil_left, List.zip_nil_right, MacroHead.shapeErrors, mismatches]; simp
  | cons expected shapes ih =>
    rw [List.length_cons] at hlength
    have hname : h.argumentNames.drop i
        = h.argumentName i :: h.argumentNames.drop (i + 1) := by
      have hi : i < h.argumentNames.length := by rw [length_argumentNames]; omega
      have hget := argumentNames_getElem? (h := h) (i := i) (by omega)
      rw [List.getElem?_eq_getElem hi] at hget
      rw [List.drop_eq_getElem_cons hi, Option.some.inj hget]
    rw [hname, List.zip_cons_cons]
    cases args with
    | nil => rfl
    | cons arg args =>
      rw [List.zip_cons_cons, MacroHead.shapeErrors, ih (by omega), mismatches]
      rfl

theorem mismatches_of_any (h : ∀ s ∈ slots, s.2 = .any) (args : List Node) :
    mismatches slots args = [] := by
  fun_induction mismatches slots args with
  | case1 s slots arg args ih =>
    obtain ⟨hs, hslots⟩ := List.forall_mem_cons.mp h
    rw [hs, if_pos (ShapeSet.accepts_any arg), ih hslots]
    rfl
  | case2 => rfl

theorem MacroHead.Lined.of_shapes (hc : Macro.checkHead h = .ok ())
    (hnames : h.argumentNames = slots.map Prod.fst) (hshapes : h.shapes = slots.map Prod.snd) :
    h.Lined slots := by
  have hlength : slots.length = h.arity := by
    rw [← length_argumentNames, hnames, List.length_map]
  have hinferences : h.inferences = some (slots.map Prod.snd)
      ∨ h.inferences = none ∧ ∀ s ∈ slots, s.2 = .any := by
    rw [← hshapes, MacroHead.shapes]
    cases hi : h.inferences with
    | some shapes => exact .inl rfl
    | none =>
      rw [MacroHead.shapes, hi, Option.getD_none] at hshapes
      refine .inr ⟨rfl, fun s hs => ?_⟩
      have hmem : s.2 ∈ slots.map Prod.snd := List.mem_map_of_mem hs
      rw [← hshapes] at hmem
      exact List.eq_of_mem_replicate hmem
  refine ⟨hnames, hlength, hinferences, fun call args rs hb => ?_⟩
  have hbound : (h.bind call).1 = some args := by rw [hb]
  refine ⟨(length_bind hc hbound).trans hlength.symm, bind_eq_sources hc hbound, ?_⟩
  rw [MacroHead.arguments, hb]
  rcases hinferences with hi | ⟨hi, hany⟩
  · have hzip : h.argumentNames.zip (slots.map Prod.snd) = slots := by
      rw [hnames]
      exact (List.zip_of_prod rfl rfl).symm
    have hcheck : h.shapeErrors 0 ((slots.map Prod.snd).zip args)
        = mismatches ((h.argumentNames.drop 0).zip (slots.map Prod.snd)) args :=
      shapeErrors_eq_mismatches (by rw [List.length_map, hlength, Nat.zero_add]) args
    rw [List.drop_zero, hzip] at hcheck
    rw [hi, ← hcheck]
  · rw [hi, mismatches_of_any hany, List.append_nil]
    rfl

end

/-! ## Built macros -/

namespace MacroBuilder

/-- A call of the builder. -/
inductive Call
  | param (name : String) (default : Option Node) (shapes : ShapeSet)
  | inferSelf (shapes : ShapeSet)

def perform (b : MacroBuilder) : Call → MacroBuilder
  | .param name default shapes => b.param name default shapes
  | .inferSelf shapes => b.inferSelf shapes

/-- The builder after a sequence of calls. -/
def after (name : String) (kind : MacroKind) (calls : List Call) : MacroBuilder :=
  calls.foldl perform (start name kind)

/-- The parameters that calls declare. -/
def declaredParams (calls : List Call) : List Param :=
  calls.filterMap fun
    | .param name default _ => some ⟨name, default⟩
    | .inferSelf _ => none

/-- The shapes of `self`, those of the last call about it. -/
def selfShapes (calls : List Call) : ShapeSet :=
  calls.foldl (fun s c =>
    match c with
    | .param _ _ _ => s
    | .inferSelf shapes => shapes.normalize) .any

/-- The slots that calls declare: that of `self` first, then one a parameter in order. -/
def declaredSlots (kind : MacroKind) (calls : List Call) : List ArgumentSlot :=
  (if kind.isFunction then [("self", selfShapes calls)] else [])
    ++ calls.filterMap fun
      | .param name _ shapes => some (name, shapes.normalize)
      | .inferSelf _ => none

/-- A macro that a builder makes, of a template or of native code. -/
def Makes (b : MacroBuilder) (m : Macro) : Prop :=
  (∃ body edits, b.template body edits = .ok m) ∨ ∃ run, b.native run = .ok m

/-- What a builder holds if no call was mistaken. -/
structure Holds (b : MacroBuilder) (name : String) (kind : MacroKind) (calls : List Call) :
    Prop where
  signature : b.signature = ⟨name, kind⟩
  params : b.params = declaredParams calls
  shapes : b.inferencesOrAny = (declaredSlots kind calls).map Prod.snd

variable {b : MacroBuilder} {name : String} {kind : MacroKind} {calls : List Call}

theorem fail_mistake (b : MacroBuilder) (reason : String) : (b.fail reason).mistake ≠ none := by
  cases hm : b.mistake <;> simp [fail, hm]

theorem declaredParams_names (kind : MacroKind) (calls : List Call) :
    (if kind.isFunction then ["self"] else []) ++ (declaredParams calls).map Param.name
      = (declaredSlots kind calls).map Prod.fst := by
  rw [declaredSlots, declaredParams, List.map_append, List.map_filterMap, List.map_filterMap]
  congr 1
  · split <;> rfl
  · refine List.filterMap_congr fun c _ => ?_
    cases c <;> rfl

theorem declaredSlots_param (kind : MacroKind) (calls : List Call) (p : String)
    (default : Option Node) (shapes : ShapeSet) :
    declaredSlots kind (calls ++ [.param p default shapes])
      = declaredSlots kind calls ++ [(p, shapes.normalize)] := by
  simp [declaredSlots, selfShapes]

theorem declaredSlots_inferSelf (hf : kind.isFunction = true) (calls : List Call)
    (shapes : ShapeSet) :
    declaredSlots kind (calls ++ [.inferSelf shapes])
      = (declaredSlots kind calls).set 0 ("self", shapes.normalize) := by
  simp [declaredSlots, selfShapes, hf]

/-- A list of shapes that is made later holds what one made at the start would hold. -/
theorem inferencesOrAny_param (b : MacroBuilder) (p : String) (default : Option Node)
    {shapes : ShapeSet} (he : ¬shapes.normalize.isEmpty = true) :
    (b.param p default shapes).inferencesOrAny = b.inferencesOrAny ++ [shapes.normalize] := by
  simp only [MacroBuilder.param, if_neg he]
  by_cases ha : shapes.normalize = .any
  · cases hi : b.inferences with
    | some shapes' => simp [inferencesOrAny, hi, ha]
    | none => simp [inferencesOrAny, hi, ha, ← List.replicate_succ', Nat.add_right_comm]
  · simp [inferencesOrAny, ha]

theorem holds_start (name : String) (kind : MacroKind) : (start name kind).Holds name kind [] := by
  refine ⟨rfl, rfl, ?_⟩
  cases hf : kind.isFunction <;> simp [start, inferencesOrAny, declaredSlots, selfShapes, hf]

theorem mistake_of_perform {c : Call} (hm : (b.perform c).mistake = none) : b.mistake = none := by
  cases c with
  | param p default shapes =>
    simp only [perform, MacroBuilder.param] at hm
    split at hm
    · exact absurd hm (fail_mistake b _)
    · exact hm
  | inferSelf shapes =>
    rw [perform, MacroBuilder.inferSelf] at hm
    split at hm
    · exact absurd hm (fail_mistake b _)
    · split at hm
      · exact absurd hm (fail_mistake b _)
      · exact hm

theorem Holds.param (hb : b.Holds name kind calls) {p : String} {default : Option Node}
    {shapes : ShapeSet} (hm : (b.param p default shapes).mistake = none) :
    (b.param p default shapes).Holds name kind (calls ++ [.param p default shapes]) := by
  have he : ¬shapes.normalize.isEmpty = true := by
    intro he
    rw [MacroBuilder.param] at hm
    simp only [he, if_true] at hm
    exact fail_mistake b _ hm
  have hshapes := inferencesOrAny_param b p default he
  rw [hb.shapes] at hshapes
  simp only [MacroBuilder.param, if_neg he] at hshapes ⊢
  refine ⟨hb.signature, ?_, ?_⟩
  · simp [hb.params, declaredParams]
  · rw [hshapes, declaredSlots_param, List.map_append, List.map_singleton]

theorem Holds.inferSelf (hb : b.Holds name kind calls) {shapes : ShapeSet}
    (hm : (b.inferSelf shapes).mistake = none) :
    (b.inferSelf shapes).Holds name kind (calls ++ [.inferSelf shapes]) := by
  rw [MacroBuilder.inferSelf] at hm ⊢
  split at hm
  · exact absurd hm (fail_mistake b _)
  · rename_i hf
    split at hm
    · exact absurd hm (fail_mistake b _)
    · rename_i he
      rw [if_neg hf, if_neg he]
      have hfunction : kind.isFunction = true := by simpa [hb.signature] using hf
      refine ⟨hb.signature, ?_, ?_⟩
      · simp [hb.params, declaredParams]
      · rw [declaredSlots_inferSelf hfunction, List.map_set, ← hb.shapes]
        rfl

/-- A builder that saw no mistake holds what its calls declare. -/
theorem holds_after {name : String} {kind : MacroKind} (calls : List Call)
    (hm : (after name kind calls).mistake = none) :
    (after name kind calls).Holds name kind calls := by
  induction calls using List.reverseRecOn with
  | nil => exact holds_start name kind
  | append_singleton calls c ih =>
    have hstep : after name kind (calls ++ [c]) = (after name kind calls).perform c := by
      rw [after, after, List.foldl_append, List.foldl_cons, List.foldl_nil]
    rw [hstep] at hm ⊢
    have hb := ih (mistake_of_perform hm)
    cases c with
    | param p default shapes => exact hb.param hm
    | inferSelf shapes => exact hb.inferSelf hm

/-! ## Made macros -/

theorem head_spec {h : MacroHead} (hb : b.head = .ok h) :
    b.mistake = none ∧ checkParams b.params = .ok () ∧ Macro.checkHead h = .ok ()
      ∧ h = ⟨b.signature, b.params, b.inferences⟩ := by
  unfold MacroBuilder.head at hb
  cases hm : b.mistake with
  | some f => simp [hm, bind, Except.bind, throw, throwThe, MonadExceptOf.throw] at hb
  | none =>
    cases hp : checkParams b.params with
    | error f => simp [hm, hp, bind, Except.bind] at hb
    | ok _ =>
      cases hc : Macro.checkHead ⟨b.signature, b.params, b.inferences⟩ with
      | error f => simp [hm, hp, hc, bind, Except.bind] at hb
      | ok _ =>
        simp only [hm, hp, hc, bind, Except.bind, pure, Except.pure, Except.ok.injEq] at hb
        exact ⟨rfl, rfl, hb ▸ hc, hb.symm⟩

theorem Makes.head {m : Macro} (hm : b.Makes m) : b.head = .ok m.head := by
  have hmap {make : MacroHead → Macro} (hmake : ∀ h, (make h).head = h)
      (hm : b.head.map make = .ok m) : b.head = .ok m.head := by
    cases hh : b.head with
    | error f => simp [hh, Except.map] at hm
    | ok h =>
      rw [hh, Except.map, Except.ok.injEq] at hm
      rw [← hm, hmake]
  rcases hm with ⟨body, edits, hm⟩ | ⟨run, hm⟩
  · exact hmap (fun _ => rfl) hm
  · exact hmap (fun _ => rfl) hm

/-- A macro that is made after any calls has the slots that they declare. -/
theorem Makes.lined {name : String} {kind : MacroKind} {calls : List Call} {m : Macro}
    (hm : (after name kind calls).Makes m) : m.head.Lined (declaredSlots kind calls) := by
  obtain ⟨hmistake, -, hc, hhead⟩ := head_spec hm.head
  have hb := holds_after calls hmistake
  refine .of_shapes hc ?_ ?_
  · rw [MacroHead.argumentNames, hhead]
    simp only [hb.signature, hb.params, declaredParams_names]
  · rw [← hb.shapes, hhead]
    rfl

end MacroBuilder

end ConfigScript
