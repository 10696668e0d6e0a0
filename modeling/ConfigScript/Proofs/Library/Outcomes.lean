import ConfigScript.Proofs.Library.Placed
import ConfigScript.Proofs.Macro.Admission

/-! # What the library can come to

A macro of the library never fails by a fault, whatever it is applied to. Its native code gives a
node without a word, or refuses with one error: it asks its arguments for no more than what its
declaration has checked. -/

namespace ConfigScript

/-- The native code has not failed. -/
def MacroResult.Returned : MacroResult → Prop
  | .produced _ => True
  | .refused => True
  | .fault _ => False
  | .crashed _ => False

/-- A node without a report, or none with one error. -/
inductive Expansion.Decided : Expansion → Prop
  | produced (n : Node) : Decided (.produced n)
  | refused {r : Report} (h : r.isError = true) : Decided ⟨.refused, [r]⟩

/-- A body that decides on all arguments of these shapes. -/
def NativeBody.Decides (shapes : List ShapeSet) (run : NativeBody) : Prop :=
  ∀ args, Fits shapes args → ∀ copy, (run args copy).Decided

theorem Expansion.Decided.returned {e : Expansion} (h : e.Decided) (rs : List Report) :
    (e.after rs).result.Returned := by
  cases h <;> trivial

namespace Library

open Expansion

/-! ## Evaluation -/

/-- A value without a report, or none with one error. -/
inductive Evaluated : Evaluation → Prop
  | value (v : Value) : Evaluated (some v, [])
  | rejected {r : Report} (h : r.isError = true) : Evaluated (none, [r])

theorem reject_evaluated (message : String) (position : Option Nat) :
    Evaluated (reject message position) := .rejected rfl

theorem evalUnary_evaluated (op : String) (v : Value) (position : Option Nat) :
    Evaluated (evalUnary op v position) := by
  unfold evalUnary
  split
  · exact .value _
  · exact .value _
  · exact .value _
  · split
    · exact reject_evaluated _ position
    · exact reject_evaluated _ position

theorem evalBinary_evaluated (op : String) (v w : Value) (position : Option Nat) :
    Evaluated (evalBinary op v w position) := by
  unfold evalBinary
  split
  · exact .value _
  · split
    · exact .value _
    · split
      · exact reject_evaluated _ position
      · split
        · exact .value _
        · split
          · exact reject_evaluated _ position
          · exact reject_evaluated _ position

/-- An evaluation stops at the first operand that has no value, so that one error is all it says. -/
theorem evaluate_evaluated (n : Node) : Evaluated (evaluate n) := by
  fun_induction evaluate n with
  | case1 => exact .value _
  | case2 name info a _ ih => exact ih
  | case3 name info a _ v rs he r ih =>
    rw [he] at ih
    cases ih
    exact evalUnary_evaluated name v info.position
  | case4 name info a _ rs he ih => rwa [he] at ih
  | case5 name info a b => exact reject_evaluated _ info.position
  | case6 name info a b _ rs he ih => rwa [he] at ih
  | case7 name info a b _ v rs he ss hf ih ih' =>
    rw [he] at ih
    rw [hf] at ih'
    cases ih
    exact ih'
  | case8 name info a b _ v rs he w ss hf r ih ih' =>
    rw [he] at ih
    rw [hf] at ih'
    cases ih
    cases ih'
    exact evalBinary_evaluated name v w info.position
  | case9 name info items => exact reject_evaluated _ info.position
  | case10 n => exact reject_evaluated _ n.position

theorem expansionOf_evalNode_decided (n : Node) : (expansionOf (evalNode n)).Decided := by
  have h := evaluate_evaluated n
  rw [evalNode]
  generalize evaluate n = r at h
  cases h with
  | value v => exact .produced _
  | rejected h => exact .refused h

theorem evalBody_decides : NativeBody.Decides [.any] evalBody := by
  intro args hfits copy
  cases hfits with
  | cons _ _ => exact expansionOf_evalNode_decided _

/-! ## Formatting -/

theorem formatBody_decides : NativeBody.Decides [.primitive, .any] formatBody := by
  intro args hfits copy
  cases hfits with
  | @cons _ pattern _ _ hp hrest =>
    cases hrest with
    | cons _ _ =>
      obtain ⟨s, i, rfl⟩ := ShapeSet.accepts_primitive hp
      exact .produced _

/-! ## Collections -/

namespace Collection

variable {n self other index value : Node}

theorem keyArgument_decided (hn : ShapeSet.primitive.accepts n = true) {f : String → Expansion}
    (hf : ∀ key, (f key).Decided) : (keyArgument n f).Decided := by
  obtain ⟨s, i, rfl⟩ := ShapeSet.accepts_primitive hn
  exact hf s

theorem indexArgument_decided (hn : ShapeSet.primitive.accepts n = true) {f : Int → Expansion}
    (hf : ∀ i, (f i).Decided) : (indexArgument n f).Decided := by
  obtain ⟨s, i, rfl⟩ := ShapeSet.accepts_primitive hn
  simp only [indexArgument, Node.expectPrimitive]
  split
  · exact hf _
  · exact .refused rfl

theorem lt_of_inRange? {i : Int} {items : List Node} {k : Nat} (h : inRange? i items = some k) :
    k < items.length := by
  unfold inRange? at h
  split at h
  · obtain rfl := Option.some.inj h
    simp only [Bool.and_eq_true, decide_eq_true_eq] at *
    omega
  · simp at h

theorem withElement_decided (hn : ShapeSet.primitive.accepts index = true) {items : List Node}
    {f : Nat → Expansion} (hf : ∀ k < items.length, (f k).Decided) :
    (withElement index items f).Decided := by
  refine indexArgument_decided hn fun i => ?_
  split
  · exact hf _ (lt_of_inRange? ‹_›)
  · exact .refused rfl

theorem withProperties_decided (hn : ShapeSet.object.accepts n = true)
    {f : List (String × Node) → Expansion} (hf : ∀ props, (f props).Decided) :
    (withProperties n f).Decided := by
  obtain ⟨name, props, i, rfl⟩ := ShapeSet.accepts_object hn
  exact hf props

theorem withItems_decided (hn : listLike.accepts n = true) {f : List Node → Expansion}
    (hf : ∀ items, (f items).Decided) : (withItems n f).Decided := by
  obtain ⟨name, op, items, i, rfl⟩ := ShapeSet.accepts_list_operation hn
  exact hf items

/-! The macros, on arguments that their declarations let through. -/

section

theorem named_decided (hv : ShapeSet.primitive.accepts value = true) : (named self value).Decided :=
  keyArgument_decided hv fun _ => .produced _

theorem nameOf_decided (hs : ShapeSet.collection.accepts self = true) : (nameOf self).Decided := by
  obtain ⟨name, props, i, rfl⟩ | ⟨name, op, items, i, rfl⟩ := ShapeSet.accepts_collection hs
  · exact .produced _
  · exact .produced _

theorem lengthOf_decided (hs : ShapeSet.collection.accepts self = true) :
    (lengthOf self).Decided := by
  obtain ⟨name, props, i, rfl⟩ | ⟨name, op, items, i, rfl⟩ := ShapeSet.accepts_collection hs
  · exact .produced _
  · exact .produced _

theorem concat_decided (hs : listLike.accepts self = true) (ho : listLike.accepts other = true) :
    (concat self other).Decided :=
  withItems_decided hs fun _ => withItems_decided ho fun _ => .produced _

theorem merge_decided (hs : ShapeSet.object.accepts self = true)
    (ho : ShapeSet.object.accepts other = true) : (merge self other).Decided :=
  withProperties_decided hs fun _ => withProperties_decided ho fun _ => .produced _

theorem append_decided (hs : listLike.accepts self = true) (value : Node) :
    (append self value).Decided :=
  withItems_decided hs fun _ => .produced _

variable (hs : ShapeSet.collection.accepts self = true)
  (hi : ShapeSet.primitive.accepts index = true)

include hs hi

theorem get_decided : (get self index).Decided := by
  obtain ⟨name, props, i, rfl⟩ | ⟨name, op, items, i, rfl⟩ := ShapeSet.accepts_collection hs
  · refine keyArgument_decided hi fun key => ?_
    split
    · exact .produced _
    · exact .refused rfl
  · refine withElement_decided hi fun k hk => ?_
    rw [List.getElem?_eq_getElem hk]
    exact .produced _

theorem getOrDefault_decided (default : Node) : (getOrDefault self index default).Decided := by
  obtain ⟨name, props, i, rfl⟩ | ⟨name, op, items, i, rfl⟩ := ShapeSet.accepts_collection hs
  · exact keyArgument_decided hi fun _ => .produced _
  · exact indexArgument_decided hi fun _ => .produced _

theorem set_decided (value : Node) : (set self index value).Decided := by
  obtain ⟨name, props, i, rfl⟩ | ⟨name, op, items, i, rfl⟩ := ShapeSet.accepts_collection hs
  · exact keyArgument_decided hi fun _ => .produced _
  · exact withElement_decided hi fun _ _ => .produced _

theorem remove_decided : (remove self index).Decided := by
  obtain ⟨name, props, i, rfl⟩ | ⟨name, op, items, i, rfl⟩ := ShapeSet.accepts_collection hs
  · exact keyArgument_decided hi fun _ => .produced _
  · exact withElement_decided hi fun _ _ => .produced _

end

theorem body₁_decides {s : ShapeSet} {f : Node → Expansion}
    (h : ∀ a, s.accepts a = true → (f a).Decided) : NativeBody.Decides [s] (body₁ f) := by
  rintro args (_ | ⟨ha, -⟩) copy
  exact h _ ha

theorem body₂_decides {s t : ShapeSet} {f : Node → Node → Expansion}
    (h : ∀ a b, s.accepts a = true → t.accepts b = true → (f a b).Decided) :
    NativeBody.Decides [s, t] (body₂ f) := by
  rintro args (_ | ⟨ha, _ | ⟨hb, -⟩⟩) copy
  exact h _ _ ha hb

theorem body₃_decides {s t u : ShapeSet} {f : Node → Node → Node → Expansion}
    (h : ∀ a b c, s.accepts a = true → t.accepts b = true → u.accepts c = true →
      (f a b c).Decided) : NativeBody.Decides [s, t, u] (body₃ f) := by
  rintro args (_ | ⟨ha, _ | ⟨hb, _ | ⟨hc, -⟩⟩⟩) copy
  exact h _ _ _ ha hb hc

end Collection

/-! ## All definitions -/

/-- A native macro whose declaration is aligned and whose code decides on what it lets through. -/
def Decides : Macro → Prop
  | .native h run => h.Aligned ∧ NativeBody.Decides h.shapes run
  | .template _ _ _ => False

namespace Collection

/-- Each macro is what the builder makes of its declaration. -/
theorem macros_built :
    [((MacroBuilder.start "named" .operationFn).param "name" none .primitive
        |>.inferSelf .collection).native (body₂ named),
      ((MacroBuilder.start "name" .access).inferSelf .collection).native (body₁ nameOf),
      ((MacroBuilder.start "size" .access).inferSelf .collection).native (body₁ lengthOf),
      ((MacroBuilder.start "keys" .access).inferSelf .object).native (body₁ keysOf),
      ((MacroBuilder.start "values" .access).inferSelf .object).native (body₁ valuesOf),
      ((MacroBuilder.start "properties" .access).inferSelf .object).native (body₁ propertiesOf),
      ((MacroBuilder.start "concat" .operationFn).param "other" none listLike
        |>.inferSelf listLike).native (body₂ concat),
      ((MacroBuilder.start "merge" .operationFn).param "other" none .object
        |>.inferSelf .object).native (body₂ merge),
      ((MacroBuilder.start "get" .operationFn).param "index" none .primitive
        |>.inferSelf .collection).native (body₂ get),
      (((MacroBuilder.start "getOrDefault" .operationFn).param "index" none .primitive).param
        "default" none .any |>.inferSelf .collection).native (body₃ getOrDefault),
      ((MacroBuilder.start "add" .operationFn).param "value" none .any
        |>.inferSelf listLike).native (body₂ append),
      (((MacroBuilder.start "set" .operationFn).param "index" none .primitive).param
        "value" none .any |>.inferSelf .collection).native (body₃ set),
      ((MacroBuilder.start "remove" .operationFn).param "index" none .primitive
        |>.inferSelf .collection).native (body₂ remove)] = macros.map .ok :=
  rfl

theorem accessMacro_decides (name : String) (self : ShapeSet) {f : Node → Expansion}
    (h : ∀ a, self.accepts a = true → (f a).Decided) : Decides (accessMacro name self f) :=
  ⟨⟨rfl, rfl⟩, body₁_decides h⟩

theorem optionalLast_required (params : List (String × ShapeSet)) :
    optionalLast (params.map fun p => ⟨p.1, none⟩) = true := by
  induction params with
  | nil => rfl
  | cons p params ih => exact ih

theorem functionMacro_decides (name : String) (params : List (String × ShapeSet)) (self : ShapeSet)
    {run : NativeBody} (h : NativeBody.Decides (self :: params.map Prod.snd) run) :
    Decides (functionMacro name params self run) := by
  refine ⟨⟨?_, ?_⟩, h⟩
  · simp [Macro.checkHead, MacroKind.takesParameters, MacroKind.isPositional, optionalLast_required]
  · simp [MacroHead.shapes, MacroHead.arity, MacroKind.isFunction]

theorem macros_decide : ∀ m ∈ macros, Decides m := by
  simp only [macros, List.forall_mem_cons, List.not_mem_nil, false_imp_iff, implies_true, and_true]
  exact ⟨functionMacro_decides _ _ _ (body₂_decides fun _ _ _ hv => named_decided hv),
    accessMacro_decides _ _ fun _ => nameOf_decided,
    accessMacro_decides _ _ fun _ => lengthOf_decided,
    accessMacro_decides _ _ fun _ hs => withProperties_decided hs fun _ => .produced _,
    accessMacro_decides _ _ fun _ hs => withProperties_decided hs fun _ => .produced _,
    accessMacro_decides _ _ fun _ hs => withProperties_decided hs fun _ => .produced _,
    functionMacro_decides _ _ _ (body₂_decides fun _ _ => concat_decided),
    functionMacro_decides _ _ _ (body₂_decides fun _ _ => merge_decided),
    functionMacro_decides _ _ _ (body₂_decides fun _ _ => get_decided),
    functionMacro_decides _ _ _ (body₃_decides fun _ _ c hs hi _ => getOrDefault_decided hs hi c),
    functionMacro_decides _ _ _ (body₂_decides fun _ b hs _ => append_decided hs b),
    functionMacro_decides _ _ _ (body₃_decides fun _ _ c hs hi _ => set_decided hs hi c),
    functionMacro_decides _ _ _ (body₂_decides fun _ _ => remove_decided)⟩

end Collection

theorem definitions_decide : ∀ d ∈ definitions, ∀ m ∈ d.2.macros.macros, Decides m :=
  forall_definitions ⟨⟨rfl, rfl⟩, evalBody_decides⟩ Collection.macros_decide
    ⟨⟨rfl, rfl⟩, formatBody_decides⟩

/-- A library macro comes to a node or a refusal on every argument. Where its code is reached at
all, the code gives a node without a report or refuses with one error. -/
theorem apply_decided {d : String × Definition} (hd : d ∈ definitions) {m : Macro}
    (hm : m ∈ d.2.macros.macros) (arg : Node) (copy : Bool) :
    (m.apply arg copy).result.Returned ∧ ∃ h run, m = .native h run
      ∧ ∀ args rs, h.arguments arg = (some args, rs) →
        (run args copy).Decided ∧ m.apply arg copy = (run args copy).after rs := by
  have hdecides := definitions_decide d hd m hm
  cases m with
  | template => exact hdecides.elim
  | native h run =>
    obtain ⟨hl, hrun⟩ := hdecides
    have hreached (args : List Node) (rs : List Report) (ha : h.arguments arg = (some args, rs)) :
        (run args copy).Decided ∧ (Macro.native h run).apply arg copy = (run args copy).after rs :=
      ⟨hrun args (fits_of_arguments hl ha) copy, by rw [Macro.apply, ha]⟩
    refine ⟨?_, h, run, rfl, hreached⟩
    cases ha : h.arguments arg with
    | mk found rs =>
      cases found with
      | none =>
        rw [Macro.apply, ha]
        trivial
      | some args =>
        obtain ⟨hdecided, heq⟩ := hreached args rs ha
        rw [heq]
        exact hdecided.returned rs

theorem apply_decided_division :
    let division := Node.list "/" true [.value "1", .value "0"] {}
    ∃ m ∈ evalUnit.macros.macros,
      (m.apply (.list "" true [division] {}) false).result.Returned
        ∧ (m.apply (.list "" true [division] {}) false).reports
          = [Report.error "Division by zero"] := by
  intro division
  have hd : ("eval", evalUnit) ∈ definitions := by simp [definitions]
  refine ⟨_, List.mem_singleton_self _, ?_, by decide +kernel⟩
  exact (apply_decided hd (List.mem_singleton_self _) _ false).1

example : definitions.map (fun d => (d.1, d.2.macros.macros.map Macro.name)) =
    [("default_operator", []), ("default_operators", []), ("eval", ["eval"]),
     ("collection", ["add", "concat", "get", "getOrDefault", "keys", "merge", "name", "named",
       "properties", "remove", "set", "size", "values"]),
     ("collections", ["add", "concat", "get", "getOrDefault", "keys", "merge", "name", "named",
       "properties", "remove", "set", "size", "values"]),
     ("format", ["format"])] := by decide +kernel

end Library

end ConfigScript
