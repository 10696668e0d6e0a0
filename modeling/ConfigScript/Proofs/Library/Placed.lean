import ConfigScript.Library.Catalogue
import ConfigScript.Proofs.Macro.Placed

/-! # Where the library puts and reports things

The native macros of the library give nodes that are made up of their arguments, and report either
nowhere or where an argument stands. -/

namespace ConfigScript

open Node Expansion

variable {A : Nat → Prop}

namespace Library

/-! ## Evaluation -/

theorem reject_placed (message : String) {position : Option Nat} (h : ∀ p ∈ position, A p) :
    ReportsPlaced A (reject message position).2 :=
  reportsPlaced_singleton h

theorem evalUnary_placed (op : String) (v : Value) {position : Option Nat}
    (h : ∀ p ∈ position, A p) : ReportsPlaced A (evalUnary op v position).2 := by
  unfold evalUnary
  split
  · exact reportsPlaced_nil
  · exact reportsPlaced_nil
  · exact reportsPlaced_nil
  · split
    · exact reject_placed _ h
    · exact reject_placed _ h

theorem evalBinary_placed (op : String) (v w : Value) {position : Option Nat}
    (h : ∀ p ∈ position, A p) : ReportsPlaced A (evalBinary op v w position).2 := by
  unfold evalBinary
  split
  · exact reportsPlaced_nil
  · split
    · exact reportsPlaced_nil
    · split
      · exact reject_placed _ h
      · split
        · exact reportsPlaced_nil
        · split
          · exact reject_placed _ h
          · exact reject_placed _ h

theorem evaluate_placed {n : Node} (h : n.Placed A) : ReportsPlaced A (evaluate n).2 := by
  fun_induction evaluate n with
  | case1 => exact reportsPlaced_nil
  | case2 name info a _ ih => exact ih ((placed_list.mp h).2 a List.mem_cons_self)
  | case3 name info a _ v rs he r ih =>
    have hrs := ih ((placed_list.mp h).2 a List.mem_cons_self)
    rw [he] at hrs
    exact hrs.append (evalUnary_placed _ _ (placed_list.mp h).1)
  | case4 name info a _ rs he ih =>
    have hrs := ih ((placed_list.mp h).2 a List.mem_cons_self)
    rwa [he] at hrs
  | case5 name info a b => exact reject_placed _ (placed_list.mp h).1
  | case6 name info a b _ rs he ih =>
    have hrs := ih ((placed_list.mp h).2 a List.mem_cons_self)
    rwa [he] at hrs
  | case7 name info a b _ v rs he ss hf ih ih' =>
    have hrs := ih ((placed_list.mp h).2 a List.mem_cons_self)
    have hss := ih' ((placed_list.mp h).2 b (by simp))
    rw [he] at hrs
    rw [hf] at hss
    exact hrs.append hss
  | case8 name info a b _ v rs he w ss hf r ih ih' =>
    have hrs := ih ((placed_list.mp h).2 a List.mem_cons_self)
    have hss := ih' ((placed_list.mp h).2 b (by simp))
    rw [he] at hrs
    rw [hf] at hss
    exact (hrs.append hss).append (evalBinary_placed _ _ _ (placed_list.mp h).1)
  | case9 name info items => exact reject_placed _ (placed_list.mp h).1
  | case10 n => exact reject_placed _ h.position

theorem placed_tooFewArguments : Expansion.Placed A tooFewArguments :=
  ⟨by simp [tooFewArguments], reportsPlaced_nil⟩

theorem expansionOf_placed {r : Option Node × List Report} (hn : ∀ n ∈ r.1, n.Placed A)
    (hr : ReportsPlaced A r.2) : (expansionOf r).Placed A := by
  obtain ⟨found, rs⟩ := r
  cases found with
  | none => exact placed_refused hr
  | some n =>
    refine ⟨fun m hm => ?_, hr⟩
    simp only [expansionOf, MacroResult.produced.injEq] at hm
    exact hm ▸ hn n rfl

theorem evalBody_keeps : NativeBody.Keeps A evalBody := by
  intro args copy ha
  cases args with
  | nil => exact placed_tooFewArguments
  | cons n args =>
    refine expansionOf_placed (r := evalNode n) (fun m hm => ?_)
      (evaluate_placed (ha n List.mem_cons_self))
    obtain ⟨v, -, rfl⟩ := Option.map_eq_some_iff.mp hm
    exact placed_value _

/-! ## Formatting -/

theorem formatBody_keeps : NativeBody.Keeps A formatBody := by
  intro args copy _
  unfold formatBody
  split
  · split
    · exact placed_produced (placed_value _)
    · exact placed_fault _
  · exact placed_tooFewArguments

/-! ## Collections -/

namespace Collection

theorem placed_errorReport (message : String) :
    Expansion.Placed A ⟨.refused, [Report.error message]⟩ :=
  placed_refused (reportsPlaced_of_none (by simp [Report.error, Report.errorAt]))

theorem keyArgument_placed (n : Node) {f : String → Expansion} (hf : ∀ key, (f key).Placed A) :
    (keyArgument n f).Placed A := by
  unfold keyArgument
  split
  · exact placed_fault _
  · exact hf _

theorem indexArgument_placed {n : Node} (hn : n.Placed A) {f : Int → Expansion}
    (hf : ∀ i, (f i).Placed A) : (indexArgument n f).Placed A := by
  unfold indexArgument
  split
  · exact placed_fault _
  · split
    · exact hf _
    · exact placed_refused (reportsPlaced_singleton hn.position)

theorem withElement_placed {index : Node} (hn : index.Placed A) (items : List Node)
    {f : Nat → Expansion} (hf : ∀ k, (f k).Placed A) : (withElement index items f).Placed A := by
  refine indexArgument_placed hn fun i => ?_
  split
  · exact hf _
  · exact placed_errorReport _

theorem withProperties_placed {n : Node} (hn : n.Placed A) {f : List (String × Node) → Expansion}
    (hf : ∀ props, PropertiesPlaced A props → (f props).Placed A) :
    (withProperties n f).Placed A := by
  unfold withProperties
  split
  · rename_i props hprops
    cases n with
    | object name props' info =>
      simp only [expectProperties, Except.ok.injEq] at hprops
      exact hf props (hprops ▸ (placed_object.mp hn).2)
    | primitive => simp [expectProperties] at hprops
    | list => simp [expectProperties] at hprops
  · exact placed_fault _

theorem withItems_placed {n : Node} (hn : n.Placed A) {f : List Node → Expansion}
    (hf : ∀ items, ItemsPlaced A items → (f items).Placed A) : (withItems n f).Placed A := by
  unfold withItems
  split
  · rename_i items hitems
    cases n with
    | list name op items' info =>
      simp only [expectItems, Except.ok.injEq] at hitems
      exact hf items (hitems ▸ (placed_list.mp hn).2)
    | primitive => simp [expectItems] at hitems
    | object => simp [expectItems] at hitems
  · exact placed_fault _

theorem listOf_placed {items : List Node} (h : ItemsPlaced A items) : (listOf items).Placed A :=
  placed_list.mpr ⟨by simp, h⟩

theorem setItems_placed {n : Node} (hn : n.Placed A) {items : List Node}
    (h : ItemsPlaced A items) : (setItems items n).Placed A := by
  cases n with
  | list name op items' info => exact placed_list.mpr ⟨(placed_list.mp hn).1, h⟩
  | primitive => exact hn
  | object => exact hn

theorem setProperties_placed {n : Node} (hn : n.Placed A) {props : List (String × Node)}
    (h : PropertiesPlaced A props) : (setProperties props n).Placed A := by
  cases n with
  | object name props' info => exact placed_object.mpr ⟨(placed_object.mp hn).1, h⟩
  | primitive => exact hn
  | list => exact hn

theorem mergeProperties_placed {ps qs : List (String × Node)} (hp : PropertiesPlaced A ps)
    (hq : PropertiesPlaced A qs) : PropertiesPlaced A (mergeProperties ps qs) := by
  unfold mergeProperties
  induction qs generalizing ps with
  | nil => exact hp
  | cons q qs ih =>
    refine ih ?_ fun r hr => hq r (List.mem_cons_of_mem q hr)
    simp only
    split
    · exact hp
    · exact Properties.put_placed hp (hq q List.mem_cons_self)

/-! ### The macros on `self` alone -/

theorem nameOf_placed (self : Node) : (nameOf self).Placed A := by
  unfold nameOf
  split
  · exact placed_produced (placed_value _)
  · exact placed_refused reportsPlaced_nil

theorem lengthOf_placed (self : Node) : (lengthOf self).Placed A := by
  unfold lengthOf
  split
  · exact placed_produced (placed_value _)
  · exact placed_produced (placed_value _)
  · exact placed_fault _

theorem keysOf_placed {self : Node} (h : self.Placed A) : (keysOf self).Placed A :=
  withProperties_placed h fun props _ => placed_produced (listOf_placed fun x hx => by
    obtain ⟨p, -, rfl⟩ := List.mem_map.mp hx
    exact placed_value _)

theorem valuesOf_placed {self : Node} (h : self.Placed A) : (valuesOf self).Placed A :=
  withProperties_placed h fun props hprops => placed_produced (listOf_placed fun x hx => by
    obtain ⟨p, hp, rfl⟩ := List.mem_map.mp hx
    exact hprops p hp)

theorem propertiesOf_placed {self : Node} (h : self.Placed A) : (propertiesOf self).Placed A :=
  withProperties_placed h fun props hprops => placed_produced (listOf_placed fun x hx => by
    obtain ⟨p, hp, rfl⟩ := List.mem_map.mp hx
    exact listOf_placed (itemsPlaced_pair (placed_value _) (hprops p hp)))

/-! ### The macros with parameters -/

section

variable {self index value other : Node} (hs : self.Placed A)
include hs

theorem named_placed (name : Node) : (named self name).Placed A :=
  keyArgument_placed name fun key => placed_produced (hs.setName key)

theorem concat_placed (ho : other.Placed A) : (concat self other).Placed A :=
  withItems_placed hs fun _ hx => withItems_placed ho fun _ hy =>
    placed_produced (setItems_placed hs (hx.append hy))

theorem merge_placed (ho : other.Placed A) : (merge self other).Placed A :=
  withProperties_placed hs fun _ hp => withProperties_placed ho fun _ hq =>
    placed_produced (setProperties_placed hs (mergeProperties_placed hp hq))

theorem get_placed (hi : index.Placed A) : (get self index).Placed A := by
  unfold get
  split
  · rename_i name props info
    refine keyArgument_placed index fun key => ?_
    split
    · rename_i v hv
      exact placed_produced ((placed_object.mp hs).2 _ (Properties.mem_of_get? hv))
    · exact placed_errorReport _
  · refine withItems_placed hs fun items hx => withElement_placed hi items fun k => ?_
    split
    · rename_i v hv
      exact placed_produced (hx v (List.mem_of_getElem? hv))
    · exact placed_refused reportsPlaced_nil

theorem getOrDefault_placed (hi : index.Placed A) {default : Node} (hd : default.Placed A) :
    (getOrDefault self index default).Placed A := by
  have hgetD {found : Option Node} (h : ∀ v ∈ found, v.Placed A) :
      (found.getD default).Placed A := by
    cases found with
    | none => exact hd
    | some v => exact h v rfl
  unfold getOrDefault
  split
  · rename_i name props info
    refine keyArgument_placed index fun key => placed_produced (hgetD fun v hv => ?_)
    exact (placed_object.mp hs).2 _ (Properties.mem_of_get? hv)
  · refine withItems_placed hs fun items hx => indexArgument_placed hi fun i =>
      placed_produced (hgetD fun v hv => ?_)
    obtain ⟨k, -, hk⟩ := Option.bind_eq_some_iff.mp hv
    exact hx v (List.mem_of_getElem? hk)

theorem append_placed (hv : value.Placed A) : (append self value).Placed A :=
  withItems_placed hs fun _ hx =>
    placed_produced (setItems_placed hs (hx.append (itemsPlaced_singleton hv)))

theorem set_placed (hi : index.Placed A) (hv : value.Placed A) :
    (set self index value).Placed A := by
  unfold set
  split
  · rename_i name props info
    refine keyArgument_placed index fun key => placed_produced (setProperties_placed hs ?_)
    exact Properties.put_placed (placed_object.mp hs).2 hv
  · refine withItems_placed hs fun items hx => withElement_placed hi items fun k =>
      placed_produced (setItems_placed hs fun x hmem => ?_)
    rcases List.mem_or_eq_of_mem_set hmem with hmem | rfl
    · exact hx x hmem
    · exact hv

theorem remove_placed (hi : index.Placed A) : (remove self index).Placed A := by
  unfold remove
  split
  · rename_i name props info
    refine keyArgument_placed index fun key => placed_produced (setProperties_placed hs ?_)
    exact fun q hq => (placed_object.mp hs).2 q (List.mem_filter.mp hq).1
  · refine withItems_placed hs fun items hx => withElement_placed hi items fun k =>
      placed_produced (setItems_placed hs fun x hmem => ?_)
    exact hx x (List.mem_of_mem_eraseIdx hmem)

end

/-! ### Bodies -/

theorem body₁_keeps {f : Node → Expansion} (h : ∀ a, a.Placed A → (f a).Placed A) :
    NativeBody.Keeps A (body₁ f) := by
  intro args copy ha
  unfold body₁
  split
  · exact h _ (ha _ List.mem_cons_self)
  · exact placed_tooFewArguments

theorem body₂_keeps {f : Node → Node → Expansion}
    (h : ∀ a b, a.Placed A → b.Placed A → (f a b).Placed A) : NativeBody.Keeps A (body₂ f) := by
  intro args copy ha
  unfold body₂
  split
  · exact h _ _ (ha _ List.mem_cons_self) (ha _ (by simp))
  · exact placed_tooFewArguments

theorem body₃_keeps {f : Node → Node → Node → Expansion}
    (h : ∀ a b c, a.Placed A → b.Placed A → c.Placed A → (f a b c).Placed A) :
    NativeBody.Keeps A (body₃ f) := by
  intro args copy ha
  unfold body₃
  split
  · exact h _ _ _ (ha _ List.mem_cons_self) (ha _ (by simp)) (ha _ (by simp))
  · exact placed_tooFewArguments

/-- A native macro without positions in its parameters, whose code keeps positions. -/
def Kept (A : Nat → Prop) : Macro → Prop
  | .native h run => ParamsPlaced A h.params ∧ NativeBody.Keeps A run
  | .template _ _ _ => False

theorem accessMacro_kept (name : String) (self : ShapeSet) {f : Node → Expansion}
    (h : ∀ a, a.Placed A → (f a).Placed A) : Kept A (accessMacro name self f) :=
  ⟨fun p hp => by simp at hp, body₁_keeps h⟩

theorem functionMacro_kept (name : String) (params : List (String × ShapeSet)) (self : ShapeSet)
    {run : NativeBody} (h : run.Keeps A) : Kept A (functionMacro name params self run) := by
  refine ⟨fun p hp d hd => ?_, h⟩
  obtain ⟨q, -, rfl⟩ := List.mem_map.mp hp
  simp at hd

theorem macros_kept : ∀ m ∈ macros, Kept A m := by
  simp only [macros, List.forall_mem_cons, List.not_mem_nil, false_imp_iff, implies_true, and_true]
  exact ⟨functionMacro_kept _ _ _ (body₂_keeps fun _ b hs _ => named_placed hs b),
    accessMacro_kept _ _ fun a _ => nameOf_placed a,
    accessMacro_kept _ _ fun a _ => lengthOf_placed a,
    accessMacro_kept _ _ fun _ => keysOf_placed,
    accessMacro_kept _ _ fun _ => valuesOf_placed,
    accessMacro_kept _ _ fun _ => propertiesOf_placed,
    functionMacro_kept _ _ _ (body₂_keeps fun _ _ => concat_placed),
    functionMacro_kept _ _ _ (body₂_keeps fun _ _ => merge_placed),
    functionMacro_kept _ _ _ (body₂_keeps fun _ _ => get_placed),
    functionMacro_kept _ _ _ (body₃_keeps fun _ _ _ hs hi hd => getOrDefault_placed hs hi hd),
    functionMacro_kept _ _ _ (body₂_keeps fun _ _ => append_placed),
    functionMacro_kept _ _ _ (body₃_keeps fun _ _ _ => set_placed),
    functionMacro_kept _ _ _ (body₂_keeps fun _ _ => remove_placed)⟩

end Collection

/-! ## All definitions -/

open Collection

theorem mem_addMacros {d : Definition} {ms : List Macro} {m : Macro}
    (h : m ∈ (d.addMacros ms).macros.macros) : m ∈ d.macros.macros ∨ m ∈ ms := by
  induction ms generalizing d with
  | nil => exact .inl h
  | cons n ms ih =>
    rcases ih h with h | h
    · rcases MacroRegistry.mem_add h with rfl | h
      · exact .inr List.mem_cons_self
      · exact .inl h
    · exact .inr (List.mem_cons_of_mem n h)

/-- What holds of the macros by themselves holds of all that are registered. -/
theorem forall_definitions {P : Macro → Prop}
    (heval : P (libraryMacro "eval" .operation [⟨"expr", none⟩] none evalBody))
    (hcollection : ∀ m ∈ macros, P m)
    (hformat : P (libraryMacro "format" .operation
      [⟨"format", none⟩, ⟨"argument", some (.list "" false [] {})⟩] (some [.primitive, .any])
      formatBody)) :
    ∀ d ∈ definitions, ∀ m ∈ d.2.macros.macros, P m := by
  have hoperators (m : Macro) (hm : m ∈ operatorsUnit.macros.macros) : P m := by
    simp [operatorsUnit] at hm
  have heval (m : Macro) (hm : m ∈ evalUnit.macros.macros) : P m := by
    rcases mem_addMacros hm with hm | hm
    · exact hoperators m hm
    · rwa [List.mem_singleton.mp hm]
  have hcollection (m : Macro) (hm : m ∈ Collection.unit.macros.macros) : P m := by
    rcases mem_addMacros hm with hm | hm
    · simp at hm
    · exact hcollection m hm
  have hformat (m : Macro) (hm : m ∈ formatUnit.macros.macros) : P m := by
    rcases mem_addMacros hm with hm | hm
    · simp at hm
    · rwa [List.mem_singleton.mp hm]
  simp only [definitions, List.forall_mem_cons, List.not_mem_nil, false_imp_iff, implies_true,
    and_true]
  exact ⟨hoperators, hoperators, heval, hcollection, hcollection, hformat⟩

theorem definitions_kept : ∀ d ∈ definitions, ∀ m ∈ d.2.macros.macros, Kept A m :=
  forall_definitions ⟨by simp [ParamsPlaced], evalBody_keeps⟩ macros_kept
    ⟨by simp [ParamsPlaced, placed_list, itemsPlaced_nil], formatBody_keeps⟩

/-- The native code of the library. -/
def Code (run : NativeBody) : Prop :=
  ∃ d ∈ definitions, ∃ h, Macro.native h run ∈ d.2.macros.macros

theorem Code.keeps {run : NativeBody} (h : Code run) : run.Keeps A := by
  obtain ⟨d, hd, head, hm⟩ := h
  exact (definitions_kept d hd _ hm).2

theorem definitions_placed {d : String × Definition} (hd : d ∈ definitions) :
    d.2.macros.Placed A Code := by
  intro m hm
  have hkept := definitions_kept (A := A) d hd m hm
  cases m with
  | template => exact hkept.elim
  | native head run => exact .native hkept.1 ⟨d, hd, head, hm⟩

end Library

end ConfigScript
