import ConfigScript.Macro.Apply
import ConfigScript.Macro.Template
import ConfigScript.Macro.Registry

/-! # Refusals are reported

A macro that refuses its argument says why with an error, as long as the native code in it does:
neither the binding of arguments nor the edits of a template give up in silence. -/

namespace ConfigScript

@[simp] theorem hasError_append (rs ss : List Report) :
    hasError (rs ++ ss) = (hasError rs || hasError ss) := List.any_append

@[simp] theorem hasError_map_orAt (position : Option Nat) (rs : List Report) :
    hasError (rs.map (Report.orAt position)) = hasError rs := by
  simp only [hasError, List.any_map]
  rfl

/-! ## Binding -/

/-- Nothing bound, or an error, or both. -/
def Speaks {α : Type} (found : Option α) (rs : List Report) : Prop :=
  found = none → hasError rs = true

theorem bindProperties_speaks (params : List Param) (args : List (String × Node)) :
    Speaks (bindProperties params args).1 (bindProperties params args).2 := by
  unfold bindProperties
  intro h
  simp only at h ⊢
  generalize (params.map fun p => (p, (Properties.get? p.name args).or p.default)).filter
    (fun b => b.2.isNone) = missing at h ⊢
  cases missing with
  | nil => simp at h
  | cons b bs => rfl

theorem defaultsOf_isSome {params : List Param} (h : params.all Param.isOptional = true) :
    (defaultsOf params).isSome = true := by
  induction params with
  | nil => rfl
  | cons p ps ih =>
    rw [List.all_cons, Bool.and_eq_true, Param.isOptional, Option.isSome_iff_exists] at h
    obtain ⟨⟨v, hv⟩, hps⟩ := h
    rw [defaultsOf, hv, Option.bind_some, Option.isSome_map]
    exact ih hps

theorem defaultsOf_drop {params : List Param} (ho : optionalLast params = true) {n : Nat}
    (hn : requiredCount params ≤ n) : (defaultsOf (params.drop n)).isSome = true := by
  induction params generalizing n with
  | nil => simp [defaultsOf]
  | cons p ps ih =>
    cases hp : p.isOptional with
    | true =>
      have hall : (p :: ps).all Param.isOptional = true := by simpa [optionalLast, hp] using ho
      refine defaultsOf_isSome (List.all_eq_true.mpr fun q hq => ?_)
      exact List.all_eq_true.mp hall q (List.mem_of_mem_drop hq)
    | false =>
      have hps : optionalLast ps = true := by simpa [optionalLast, hp] using ho
      have hcount : requiredCount (p :: ps) = requiredCount ps + 1 := by
        simp [requiredCount, requiredParams, hp]
      obtain ⟨m, rfl⟩ : ∃ m, n = m + 1 := ⟨n - 1, by omega⟩
      exact ih hps (by omega)

theorem bindItems_speaks {params : List Param} (ho : optionalLast params = true)
    (args : List Node) : Speaks (bindItems params args).1 (bindItems params args).2 := by
  unfold bindItems
  intro h
  split at h
  · rename_i hlt
    rw [if_pos hlt]
    rfl
  · rename_i hlt
    have hd := defaultsOf_drop ho (Nat.le_of_not_lt hlt)
    simp only [Option.map_eq_none_iff] at h
    rw [h] at hd
    exact absurd hd (by decide)

theorem checkHead_optionalLast {h : MacroHead} (hc : Macro.checkHead h = .ok ())
    (hp : h.signature.kind.isPositional = true) : optionalLast h.params = true := by
  unfold Macro.checkHead at hc
  simp only [hp, Bool.true_and] at hc
  split at hc
  · simp at hc
  · split at hc
    · simp at hc
    · rename_i ho
      simpa using ho

theorem bindBracketed_speaks {h : MacroHead} (hc : Macro.checkHead h = .ok ())
    (ht : h.signature.kind.takesParameters = true) (arg : Node) :
    Speaks (bindBracketed h arg).1 (bindBracketed h arg).2 := by
  unfold bindBracketed
  split
  · split
    · exact bindProperties_speaks _ _
    · exact fun _ => rfl
  · rename_i hk
    have hp : h.signature.kind.isPositional = true := by
      simpa [MacroKind.takesParameters, hk] using ht
    split
    · exact bindItems_speaks (checkHead_optionalLast hc hp) _
    · exact fun _ => rfl

theorem bind_speaks {h : MacroHead} (hc : Macro.checkHead h = .ok ()) (arg : Node) :
    Speaks (h.bind arg).1 (h.bind arg).2 := by
  unfold MacroHead.bind
  split
  · simp [Speaks]
  · split
    · simp [Speaks]
    · exact fun _ => rfl
  · rename_i hconst haccess
    have ht : h.signature.kind.takesParameters = true := by
      cases hk : h.signature.kind <;> simp_all [MacroKind.takesParameters, MacroKind.isPositional,
        MacroKind.isKeyed]
    split
    · split
      · rename_i args rest _
        intro hn
        simp only [Option.map_eq_none_iff] at hn
        simp only [hasError_append, bindBracketed_speaks hc ht args hn, Bool.or_true]
      · exact fun _ => rfl
    · exact bindBracketed_speaks hc ht arg

theorem shapeErrors_hasError (h : MacroHead) (i : Nat) (pairs : List (ShapeSet × Node))
    (hne : h.shapeErrors i pairs ≠ []) : hasError (h.shapeErrors i pairs) = true := by
  induction pairs generalizing i with
  | nil => simp [MacroHead.shapeErrors] at hne
  | cons p ps ih =>
    obtain ⟨expected, arg⟩ := p
    rw [MacroHead.shapeErrors, hasError_append]
    split
    · rename_i ha
      simp only [MacroHead.shapeErrors, ha, if_true, List.nil_append] at hne
      rw [ih _ hne, Bool.or_true]
    · rfl

/-- An argument that a checked head does not take is refused with an error. -/
theorem arguments_speaks {h : MacroHead} (hc : Macro.checkHead h = .ok ()) (arg : Node) :
    Speaks (h.arguments arg).1 (h.arguments arg).2 := by
  have hb := bind_speaks hc arg
  unfold MacroHead.arguments
  split
  · rename_i rs he
    rw [he] at hb
    exact hb
  · split
    · simp [Speaks]
    · rename_i shapes _
      intro hn
      simp only [hasError_append] at hn ⊢
      split at hn
      · simp at hn
      · rename_i hne
        rw [shapeErrors_hasError h 0 _ (by simpa using hne), Bool.or_true]

/-! ## Application -/

/-- A macro that passed the checks of its creation, and whose native code, that of the macros it
calls included, refuses nothing without an error. -/
inductive Macro.Trusted : Macro → Prop
  | template {h : MacroHead} {body : Node} {edits : List Edit} :
    Macro.checkHead h = .ok () → (∀ path m, Edit.call path m ∈ edits → m.Trusted) →
      Trusted (.template h body edits)
  | native {h : MacroHead} {run : List Node → Bool → Expansion} :
    Macro.checkHead h = .ok () →
      (∀ args copy, (run args copy).result = .refused → hasError (run args copy).reports = true) →
      Trusted (.native h run)

namespace Expansion

/-- A refusal comes with an error. -/
def Speaks (e : Expansion) : Prop := e.result = .refused → hasError e.reports = true

theorem produced_speaks (n : Node) : (produced n).Speaks := by simp [Speaks, produced]

theorem fault_speaks (f : Fault) : (fault f).Speaks := by simp [Speaks, fault]

theorem Speaks.after {e : Expansion} (h : e.Speaks) (rs : List Report) : (e.after rs).Speaks := by
  intro hr
  simp only [Expansion.after, hasError_append, h hr, Bool.or_true]

theorem Speaks.andThen {e : Expansion} {f : Node → Expansion} (h : e.Speaks)
    (hf : ∀ n, (f n).Speaks) : (e.andThen f).Speaks := by
  unfold Expansion.andThen
  split
  · exact (hf _).after _
  · exact h

end Expansion

open Expansion

theorem placeAt_speaks (path : Path) (target new : Node) : (placeAt path target new).Speaks := by
  unfold placeAt
  split
  · exact produced_speaks _
  · exact fault_speaks _

theorem argumentAt_speaks (args : List Node) (i : Nat) {f : Node → Expansion}
    (hf : ∀ n, (f n).Speaks) : (argumentAt args i f).Speaks := by
  unfold argumentAt
  split
  · exact hf _
  · exact fault_speaks _

theorem Edit.apply_speaks {e : Edit} {copy : Bool}
    (h : ∀ path m, e = .call path m → ∀ arg, (m.apply arg copy).Speaks) (args : List Node)
    (target : Node) : (e.apply args target copy).Speaks := by
  cases e with
  | value path i =>
    rw [Edit.apply]
    split
    · exact fault_speaks _
    · exact argumentAt_speaks args i fun n => placeAt_speaks path target n
  | rename path i =>
    rw [Edit.apply]
    split
    · exact fault_speaks _
    · refine argumentAt_speaks args i fun n => ?_
      split
      · exact placeAt_speaks _ _ _
      · exact fun _ => rfl
  | call path m =>
    rw [Edit.apply]
    split
    · exact fault_speaks _
    · exact (h path m rfl _).andThen fun n => placeAt_speaks path target n

theorem applyEdits_speaks {edits : List Edit} {copy : Bool}
    (h : ∀ path m, Edit.call path m ∈ edits → ∀ arg, (m.apply arg copy).Speaks)
    (args : List Node) (target : Node) : (applyEdits edits args target copy).Speaks := by
  induction edits generalizing target with
  | nil =>
    rw [applyEdits]
    exact produced_speaks _
  | cons e es ih =>
    rw [applyEdits]
    refine Speaks.andThen (Edit.apply_speaks (fun path m he => ?_) args target) fun n => ?_
    · exact h path m (he ▸ List.mem_cons_self)
    · exact ih (fun path m hm => h path m (List.mem_cons_of_mem e hm)) n

theorem Macro.Trusted.apply_speaks {m : Macro} (h : m.Trusted) (arg : Node) (copy : Bool) :
    (m.apply arg copy).Speaks := by
  induction h generalizing arg with
  | @template h body edits hc _ ih =>
    have ha := arguments_speaks hc arg
    rw [Macro.apply]
    split
    · exact (applyEdits_speaks (fun path m hm arg => ih path m hm arg) _ _).after _
    · rename_i rs he
      rw [he] at ha
      exact fun _ => ha rfl
  | @native h run hc hrun =>
    have ha := arguments_speaks hc arg
    rw [Macro.apply]
    split
    · exact Speaks.after (hrun _ copy) _
    · rename_i rs he
      rw [he] at ha
      exact fun _ => ha rfl

end ConfigScript
