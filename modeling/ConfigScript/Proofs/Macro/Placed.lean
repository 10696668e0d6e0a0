import ConfigScript.Proofs.Macro.Known
import ConfigScript.Proofs.Node.Placed

/-! # Where macros put and report things

A macro carries positions in its template and in the default values of its parameters. What it
gives, and what it reports, stands where they stand or where its argument does, or nowhere, as
long as that is so of the native code in it. -/

namespace ConfigScript

/-- The body of a native macro. -/
abbrev NativeBody := List Node → Bool → Expansion

variable {A : Nat → Prop} {N : NativeBody → Prop}

/-- The report stands nowhere, or where positions have a property. -/
def Report.Placed (A : Nat → Prop) (r : Report) : Prop := ∀ p ∈ r.position, A p

def ReportsPlaced (A : Nat → Prop) (rs : List Report) : Prop := ∀ r ∈ rs, r.Placed A

theorem reportsPlaced_nil : ReportsPlaced A [] := by simp [ReportsPlaced]

theorem ReportsPlaced.append {rs ss : List Report} (hr : ReportsPlaced A rs)
    (hs : ReportsPlaced A ss) : ReportsPlaced A (rs ++ ss) :=
  List.forall_mem_append.mpr ⟨hr, hs⟩

theorem reportsPlaced_of_none {rs : List Report} (h : ∀ r ∈ rs, r.position = none) :
    ReportsPlaced A rs := by
  intro r hr p hp
  simp [h r hr] at hp

theorem reportsPlaced_singleton {r : Report} (h : r.Placed A) : ReportsPlaced A [r] := by
  simpa [ReportsPlaced] using h

theorem reportsPlaced_unless {c : Prop} [Decidable c] {r : Report} (h : r.position = none) :
    ReportsPlaced A (if c then [] else [r]) := by
  split
  · exact reportsPlaced_nil
  · exact reportsPlaced_of_none (by simpa using h)

theorem Report.Placed.orAt {r : Report} (h : r.Placed A) {p : Nat} (hp : A p) :
    (r.orAt (some p)).Placed A := by
  intro q hq
  cases hr : r.position with
  | none =>
    simp only [Report.orAt, hr, Option.none_or, Option.mem_def, Option.some.injEq] at hq
    exact hq ▸ hp
  | some q' =>
    simp only [Report.orAt, hr, Option.some_or, Option.mem_def, Option.some.injEq] at hq
    exact h q (by rw [hr, hq]; rfl)

theorem ReportsPlaced.orAt {rs : List Report} (h : ReportsPlaced A rs) {p : Nat} (hp : A p) :
    ReportsPlaced A (rs.map (Report.orAt (some p))) := by
  intro r hr
  obtain ⟨q, hq, rfl⟩ := List.mem_map.mp hr
  exact (h q hq).orAt hp

/-- The nodes given and the reports stand where positions have a property. -/
def Expansion.Placed (A : Nat → Prop) (e : Expansion) : Prop :=
  (∀ n, e.result = .produced n → n.Placed A) ∧ ReportsPlaced A e.reports

/-- The parameters of a macro, by the positions of their default values. -/
def ParamsPlaced (A : Nat → Prop) (ps : List Param) : Prop := ∀ p ∈ ps, ∀ d ∈ p.default, d.Placed A

/-- The positions in the default values of parameters. -/
def paramPlaces (ps : List Param) : List Nat :=
  ps.flatMap fun p => (p.default.toList.flatMap Node.places)

/-- The body gives and reports only what stands where positions have a property, if its arguments
do. -/
def NativeBody.Keeps (A : Nat → Prop) (run : NativeBody) : Prop :=
  ∀ args copy, Node.ItemsPlaced A args → (run args copy).Placed A

/-- A macro whose positions have a property, and its native code another one, those of the macros
it calls included. -/
inductive Macro.Placed (A : Nat → Prop) (N : NativeBody → Prop) : Macro → Prop
  | template {h : MacroHead} {body : Node} {edits : List Edit} :
    ParamsPlaced A h.params → body.Placed A →
      (∀ path m, Edit.call path m ∈ edits → m.Placed A N) → Placed A N (.template h body edits)
  | native {h : MacroHead} {run : NativeBody} :
    ParamsPlaced A h.params → N run → Placed A N (.native h run)

mutual

/-- The positions in a macro: those of its template and of default values, here and in the macros
it calls. -/
def Macro.places : Macro → List Nat
  | .template h body edits => paramPlaces h.params ++ body.places ++ placesOfEdits edits
  | .native h _ => paramPlaces h.params

def Edit.places : Edit → List Nat
  | .value _ _ => []
  | .rename _ _ => []
  | .call _ m => m.places

def placesOfEdits : List Edit → List Nat
  | [] => []
  | e :: es => e.places ++ placesOfEdits es

end

theorem paramsPlaced_of_places {ps : List Param} (h : ∀ p ∈ paramPlaces ps, A p) :
    ParamsPlaced A ps := by
  intro p hp d hd q hq
  refine h q (List.mem_flatMap.mpr ⟨p, hp, List.mem_flatMap.mpr ⟨d, ?_, hq⟩⟩)
  exact Option.mem_toList.mpr hd

theorem mem_placesOfEdits {edits : List Edit} {e : Edit} (he : e ∈ edits) {p : Nat}
    (hp : p ∈ e.places) : p ∈ placesOfEdits edits := by
  induction edits with
  | nil => simp at he
  | cons e' es ih =>
    rw [placesOfEdits]
    rcases List.mem_cons.mp he with rfl | he
    · exact List.mem_append_left _ hp
    · exact List.mem_append_right _ (ih he)

theorem Macro.Placed.of_places {B : Nat → Prop} {m : Macro} (h : m.Placed B N)
    (hA : ∀ p ∈ m.places, A p) : m.Placed A N := by
  induction h with
  | template _ _ _ ih =>
    simp only [Macro.places, List.forall_mem_append] at hA
    obtain ⟨⟨hparams, hbody⟩, hedits⟩ := hA
    refine .template (paramsPlaced_of_places hparams) hbody fun path m hm => ih path m hm ?_
    exact fun p hp => hedits p (mem_placesOfEdits hm (by rwa [Edit.places]))
  | native _ hn => exact .native (paramsPlaced_of_places (by simpa only [Macro.places] using hA)) hn

namespace Expansion

theorem placed_produced {n : Node} (h : n.Placed A) : (produced n).Placed A := by
  refine ⟨fun m hm => ?_, reportsPlaced_nil⟩
  simp only [produced, MacroResult.produced.injEq] at hm
  exact hm ▸ h

theorem placed_fault (f : Fault) : (fault f).Placed A := ⟨by simp [fault], reportsPlaced_nil⟩

theorem placed_refused {rs : List Report} (h : ReportsPlaced A rs) :
    Expansion.Placed A ⟨.refused, rs⟩ := ⟨by simp, h⟩

theorem Placed.after {e : Expansion} (h : e.Placed A) {rs : List Report}
    (hr : ReportsPlaced A rs) : (e.after rs).Placed A :=
  ⟨h.1, hr.append h.2⟩

theorem Placed.andThen {e : Expansion} {f : Node → Expansion} (h : e.Placed A)
    (hf : ∀ n, n.Placed A → (f n).Placed A) : (e.andThen f).Placed A := by
  unfold Expansion.andThen
  split
  · rename_i n hn
    exact (hf n (h.1 n hn)).after h.2
  · exact h

end Expansion

open Expansion

/-! ## Binding -/

theorem bindProperties_placed {params : List Param} (hp : ParamsPlaced A params)
    {args : List (String × Node)} (ha : Node.PropertiesPlaced A args) :
    (∀ bound, (bindProperties params args).1 = some bound → Node.ItemsPlaced A bound)
      ∧ ReportsPlaced A (bindProperties params args).2 := by
  constructor
  · intro bound hb n hn
    unfold bindProperties at hb
    simp only at hb
    split at hb
    · simp only [Option.some.injEq] at hb
      subst hb
      obtain ⟨b, hb, hbn⟩ := List.mem_filterMap.mp hn
      obtain ⟨p, hmem, rfl⟩ := List.mem_map.mp hb
      simp only at hbn
      cases hget : Properties.get? p.name args with
      | some v =>
        simp only [hget, Option.some_or, Option.some.injEq] at hbn
        exact hbn ▸ ha _ (Properties.mem_of_get? hget)
      | none =>
        simp only [hget, Option.none_or] at hbn
        exact hp p hmem n hbn
    · simp at hb
  · refine reportsPlaced_of_none fun r hr => ?_
    simp only [bindProperties, List.mem_append, List.mem_map] at hr
    rcases hr with ⟨b, -, rfl⟩ | ⟨a, -, rfl⟩
    · rfl
    · rfl

theorem mem_defaultsOf {params : List Param} {ds : List Node} (h : defaultsOf params = some ds)
    {d : Node} (hd : d ∈ ds) : ∃ p ∈ params, p.default = some d := by
  induction params generalizing ds with
  | nil =>
    simp only [defaultsOf, Option.some.injEq] at h
    simp [← h] at hd
  | cons p ps ih =>
    obtain ⟨v, hv, hrest⟩ := Option.bind_eq_some_iff.mp h
    obtain ⟨vs, hvs, rfl⟩ := Option.map_eq_some_iff.mp hrest
    rcases List.mem_cons.mp hd with rfl | hd
    · exact ⟨p, List.mem_cons_self, hv⟩
    · obtain ⟨q, hq, he⟩ := ih hvs hd
      exact ⟨q, List.mem_cons_of_mem _ hq, he⟩

theorem bindItems_placed {params : List Param} (hp : ParamsPlaced A params) {args : List Node}
    (ha : Node.ItemsPlaced A args) :
    (∀ bound, (bindItems params args).1 = some bound → Node.ItemsPlaced A bound)
      ∧ ReportsPlaced A (bindItems params args).2 := by
  unfold bindItems
  split
  · exact ⟨by simp, reportsPlaced_of_none (by simp [Report.error, Report.errorAt])⟩
  · constructor
    · intro bound hb n hn
      obtain ⟨ds, hds, rfl⟩ := Option.map_eq_some_iff.mp hb
      rcases List.mem_append.mp hn with hn | hn
      · exact ha n (List.mem_of_mem_take hn)
      · obtain ⟨p, hmem, he⟩ := mem_defaultsOf hds hn
        exact hp p (List.mem_of_mem_drop hmem) n he
    · simp only
      split
      · exact reportsPlaced_of_none (by simp [Report.warning, Report.warningAt])
      · exact reportsPlaced_nil

theorem bindBracketed_placed {h : MacroHead} (hp : ParamsPlaced A h.params) {arg : Node}
    (ha : arg.Placed A) :
    (∀ bound, (bindBracketed h arg).1 = some bound → Node.ItemsPlaced A bound)
      ∧ ReportsPlaced A (bindBracketed h arg).2 := by
  have hnone (message : String) : ReportsPlaced A [Report.error message] :=
    reportsPlaced_of_none (by simp [Report.error, Report.errorAt])
  unfold bindBracketed
  split
  · split
    · rename_i props hprops
      exact bindProperties_placed hp (ha.properties? hprops)
    · exact ⟨by simp, hnone _⟩
  · split
    · rename_i items hitems
      exact bindItems_placed hp (ha.items? hitems)
    · exact ⟨by simp, hnone _⟩

theorem surplusWarning_placed (expected : Nat) (items : List Node) :
    ReportsPlaced A (surplusWarning expected items) := by
  unfold surplusWarning
  split
  · exact reportsPlaced_of_none (by simp [Report.warning, Report.warningAt])
  · exact reportsPlaced_nil

theorem bind_placed {h : MacroHead} (hp : ParamsPlaced A h.params) {arg : Node}
    (ha : arg.Placed A) :
    (∀ bound, (h.bind arg).1 = some bound → Node.ItemsPlaced A bound)
      ∧ ReportsPlaced A (h.bind arg).2 := by
  have hnone (message : String) : ReportsPlaced A [Report.error message] :=
    reportsPlaced_of_none (by simp [Report.error, Report.errorAt])
  unfold MacroHead.bind
  split
  · exact ⟨by simp [Node.itemsPlaced_nil], reportsPlaced_nil⟩
  · split
    · rename_i self rest hitems
      refine ⟨fun bound hb n hn => ?_, surplusWarning_placed _ _⟩
      simp only [Option.some.injEq] at hb
      subst hb
      rw [List.mem_singleton.mp hn]
      exact ha.items? hitems self List.mem_cons_self
    · exact ⟨by simp, hnone _⟩
  · split
    · split
      · rename_i self args rest hitems
        have hitem := ha.items? hitems
        have hself : self.Placed A := hitem self List.mem_cons_self
        have hargs : args.Placed A := hitem args (List.mem_cons_of_mem _ List.mem_cons_self)
        obtain ⟨hbound, hreports⟩ := bindBracketed_placed hp hargs
        refine ⟨fun bound hb n hn => ?_, (surplusWarning_placed _ _).append hreports⟩
        obtain ⟨rest', hrest, rfl⟩ := Option.map_eq_some_iff.mp hb
        rcases List.mem_cons.mp hn with rfl | hn
        · exact hself
        · exact hbound rest' hrest n hn
      · exact ⟨by simp, hnone _⟩
    · exact bindBracketed_placed hp ha

theorem shapeErrors_placed (h : MacroHead) (i : Nat) (pairs : List (ShapeSet × Node)) :
    ReportsPlaced A (h.shapeErrors i pairs) := by
  induction pairs generalizing i with
  | nil => exact reportsPlaced_nil
  | cons pair rest ih =>
    rw [MacroHead.shapeErrors]
    refine ReportsPlaced.append ?_ (ih (i + 1))
    split
    · exact reportsPlaced_nil
    · exact reportsPlaced_of_none (by simp [Report.error, Report.errorAt])

theorem arguments_placed {h : MacroHead} (hp : ParamsPlaced A h.params) {arg : Node}
    (ha : arg.Placed A) :
    (∀ args, (h.arguments arg).1 = some args → Node.ItemsPlaced A args)
      ∧ ReportsPlaced A (h.arguments arg).2 := by
  have hbind := bind_placed hp ha
  unfold MacroHead.arguments
  split
  · rename_i rs he
    rw [he] at hbind
    exact ⟨by simp, hbind.2⟩
  · rename_i args rs he
    rw [he] at hbind
    split
    · exact hbind
    · refine ⟨fun args' hargs => ?_, hbind.2.append (shapeErrors_placed _ _ _)⟩
      simp only at hargs
      split at hargs
      · exact hbind.1 args' hargs
      · simp at hargs

/-! ## Application -/

theorem placeAt_placed {path : Path} {target new : Node} (ht : target.Placed A)
    (hn : new.Placed A) : (placeAt path target new).Placed A := by
  unfold placeAt
  split
  · rename_i n he
    exact placed_produced (ht.replace hn he)
  · exact placed_fault _

theorem argumentAt_placed {args : List Node} (ha : Node.ItemsPlaced A args) (i : Nat)
    {f : Node → Expansion} (hf : ∀ n, n.Placed A → (f n).Placed A) :
    (argumentAt args i f).Placed A := by
  unfold argumentAt
  split
  · rename_i a he
    exact hf a (ha a (List.mem_of_getElem? he))
  · exact placed_fault _

theorem Edit.apply_placed {e : Edit} {copy : Bool}
    (h : ∀ path m, e = .call path m → ∀ arg, arg.Placed A → (m.apply arg copy).Placed A)
    {args : List Node} (ha : Node.ItemsPlaced A args) {target : Node} (ht : target.Placed A) :
    (e.apply args target copy).Placed A := by
  cases e with
  | value path i =>
    rw [Edit.apply]
    split
    · exact placed_fault _
    · exact argumentAt_placed ha i fun n hn => placeAt_placed ht hn
  | rename path i =>
    rw [Edit.apply]
    split
    · exact placed_fault _
    · rename_i slot hslot
      refine argumentAt_placed ha i fun n _ => ?_
      split
      · exact placeAt_placed ht ((ht.get? hslot).setName _)
      · exact placed_refused (reportsPlaced_of_none (by simp [Report.error, Report.errorAt]))
  | call path m =>
    rw [Edit.apply]
    split
    · exact placed_fault _
    · rename_i slot hslot
      exact (h path m rfl slot (ht.get? hslot)).andThen fun n hn => placeAt_placed ht hn

theorem applyEdits_placed {edits : List Edit} {copy : Bool}
    (h : ∀ path m, Edit.call path m ∈ edits → ∀ arg, arg.Placed A → (m.apply arg copy).Placed A)
    {args : List Node} (ha : Node.ItemsPlaced A args) {target : Node} (ht : target.Placed A) :
    (applyEdits edits args target copy).Placed A := by
  induction edits generalizing target with
  | nil =>
    rw [applyEdits]
    exact placed_produced ht
  | cons e es ih =>
    rw [applyEdits]
    refine Expansion.Placed.andThen (Edit.apply_placed (fun path m he => ?_) ha ht) fun n hn => ?_
    · exact h path m (he ▸ List.mem_cons_self)
    · exact ih (fun path m hm => h path m (List.mem_cons_of_mem e hm)) hn

/-- What a macro gives and reports stands where the macro or its argument does. -/
theorem Macro.Placed.apply {m : Macro} (h : m.Placed A N) (hN : ∀ run, N run → run.Keeps A)
    {arg : Node} (ha : arg.Placed A) (copy : Bool) : (m.apply arg copy).Placed A := by
  induction h generalizing arg with
  | @template h body edits hp hb _ ih =>
    have hargs := arguments_placed hp ha
    rw [Macro.apply]
    split
    · rename_i args rs he
      rw [he] at hargs
      have hcalls := applyEdits_placed (fun path m hm _ ha => ih path m hm ha) (hargs.1 args rfl) hb
      exact hcalls.after hargs.2
    · rename_i rs he
      rw [he] at hargs
      exact placed_refused hargs.2
  | @native h run hp hrun =>
    have hargs := arguments_placed hp ha
    rw [Macro.apply]
    split
    · rename_i args rs he
      rw [he] at hargs
      exact (hN run hrun args copy (hargs.1 args rfl)).after hargs.2
    · rename_i rs he
      rw [he] at hargs
      exact placed_refused hargs.2

/-! ## Registries -/

def MacroRegistry.Placed (A : Nat → Prop) (N : NativeBody → Prop) (r : MacroRegistry) : Prop :=
  ∀ m ∈ r.macros, m.Placed A N

namespace MacroRegistry

variable {r : MacroRegistry} {m : Macro}

theorem Placed.add (hr : r.Placed A N) (hm : m.Placed A N) : (r.add m).1.Placed A N := by
  intro n hn
  rcases mem_add hn with rfl | hn
  · exact hm
  · exact hr n hn

theorem Placed.remove (hr : r.Placed A N) (s : Signature) : (r.remove s).Placed A N :=
  fun n hn => hr n (List.mem_filter.mp hn).1

theorem Placed.group (hr : r.Placed A N) (s : Signature) : ∀ n ∈ r.group s, n.Placed A N :=
  fun n hn => hr n (List.mem_filter.mp hn).1

theorem add_reports (r : MacroRegistry) (m : Macro) : ReportsPlaced A (r.add m).2 :=
  (reportsPlaced_unless rfl).append (reportsPlaced_unless rfl)

end MacroRegistry

theorem Definition.copy_reports (d source : Definition) : ReportsPlaced A (d.copy source).2 := by
  have hmacros (d : Definition) (ms : List Macro) : ReportsPlaced A (d.copyMacros ms).2 := by
    induction ms generalizing d with
    | nil => exact reportsPlaced_nil
    | cons m ms ih => exact (d.macros.add_reports m).append (ih _)
  have hoperators (d : Definition) (os : List Operator) :
      ReportsPlaced A (d.copyOperators os).2 := by
    induction os generalizing d with
    | nil => exact reportsPlaced_nil
    | cons o os ih => exact (reportsPlaced_unless rfl).append (ih _)
  exact (hmacros _ _).append (hoperators _ _)

theorem copy_placed {d source : Definition} (hd : d.macros.Placed A N)
    (hs : source.macros.Placed A N) : (d.copy source).1.macros.Placed A N :=
  fun n hn => (mem_copy hn).elim (hd n) (hs n)

/-! ## Templates -/

/-- A template under construction whose positions have a property. -/
structure Template.Placed (A : Nat → Prop) (N : NativeBody → Prop) (t : Template) : Prop where
  start : A t.start
  params : ParamsPlaced A t.params
  calls : ∀ k path m, (k, Edit.call path m) ∈ t.pending → m.Placed A N

namespace Template

variable {t : Template}

theorem begin_placed {start : Nat} (h : A start) (name : String) (kind : MacroKind) :
    (Template.begin start name kind).Placed A N := by
  refine ⟨h, ?_, by simp [Template.begin]⟩
  intro p hp d hd
  simp only [Template.begin] at hp
  split at hp
  · rw [List.mem_singleton.mp hp] at hd
    simp at hd
  · simp at hp

theorem Placed.invalidate (ht : t.Placed A N) : t.invalidate.Placed A N := ⟨ht.1, ht.2, ht.3⟩

theorem Placed.addParam (ht : t.Placed A N) (name : String) {default : Option Node}
    (hd : ∀ d ∈ default, d.Placed A) {position : Nat} (hp : A position) :
    (t.addParam name default position).1.Placed A N
      ∧ ReportsPlaced A (t.addParam name default position).2 := by
  have hnone (message : String) : ReportsPlaced A [Report.error message] :=
    reportsPlaced_of_none (by simp [Report.error, Report.errorAt])
  have hat (message : String) : ReportsPlaced A [Report.errorAt message (some position)] :=
    reportsPlaced_singleton fun p hq => Option.some.inj hq ▸ hp
  unfold Template.addParam
  split
  · exact ⟨ht.invalidate, hnone _⟩
  · split
    · exact ⟨ht.invalidate, hnone _⟩
    · split
      · exact ⟨ht.invalidate, hat _⟩
      · refine ⟨⟨ht.start, fun p hmem => ?_, ht.calls⟩, ?_⟩
        · rcases List.mem_append.mp hmem with hmem | hmem
          · exact ht.params p hmem
          · exact List.mem_singleton.mp hmem ▸ hd
        · simp only
          split
          · exact hat _
          · exact reportsPlaced_nil

theorem Placed.records (ht : t.Placed A N) {t' : Template} (h : t.Records t') : t'.Placed A N :=
  ⟨h.start ▸ ht.start, h.params ▸ ht.params,
    fun k path m hm => ht.calls k path m (h.calls _ _ _ hm)⟩

theorem Placed.deferCall (ht : t.Placed A N) {m : Macro} (hm : m.Placed A N) (n : Node) :
    (t.deferCall m n).2.Placed A N := by
  refine ⟨ht.start, ht.params, fun k path m' h => ?_⟩
  rcases mem_deferCall h with h | rfl
  · exact ht.calls k path m' h
  · exact hm

theorem resolveParam?_reports {n n' : Node} {t' : Template} {rs : List Report}
    (h : t.resolveParam? n = some (n', t', rs)) : ReportsPlaced A rs := by
  have hnarrow (i : Nat) (p : Param) (shapes : ShapeSet) :
      ReportsPlaced A (t.narrow i p shapes).2 := by
    unfold narrow
    simp only
    split
    · exact reportsPlaced_nil
    · refine reportsPlaced_of_none fun r hr => ?_
      simp only at hr
      split at hr
      · rw [List.mem_singleton.mp hr]
        rfl
      · split at hr
        · rw [List.mem_singleton.mp hr]
          rfl
        · simp at hr
  unfold Template.resolveParam? at h
  split at h
  · simp at h
  · rename_i p i _
    cases hp : n.isPrimitive with
    | true =>
      simp only [hp, if_true] at h
      split at h <;> simp only [Option.some.injEq, Prod.mk.injEq] at h <;> rw [← h.2.2]
      · exact reportsPlaced_nil
      · exact reportsPlaced_nil
    | false =>
      simp only [hp, Bool.false_eq_true, if_false] at h
      split at h <;> simp only [Option.some.injEq, Prod.mk.injEq] at h <;> rw [← h.2.2]
      · exact hnarrow _ _ _
      · exact hnarrow _ _ _

theorem Placed.finish (ht : t.Placed A N) {body : Node} (hb : body.Placed A) :
    (∀ m, (t.finish body).1 = some m → m.Placed A N) ∧ ReportsPlaced A (t.finish body).2 := by
  constructor
  · intro m hm
    obtain ⟨head, edits, rfl, -, hparams, hcalls⟩ :=
      finish_spec (Prod.ext hm rfl : t.finish body = (some m, (t.finish body).2))
    refine .template (fun p hp => ht.params p (hparams p hp)) hb.clearMarks fun path n hn => ?_
    obtain ⟨k, path', hmem⟩ := hcalls path n hn
    exact ht.calls k path' n hmem
  · have hat (message : String) : ReportsPlaced A [Report.errorAt message (some t.start)] :=
      reportsPlaced_singleton fun p hq => Option.some.inj hq ▸ ht.start
    unfold Template.finish
    split
    · exact reportsPlaced_nil
    · simp only
      split
      · exact hat _
      · split
        · exact reportsPlaced_nil
        · exact hat _

end Template

/-! ## Overloads -/

theorem chooseOverload_placed (group : List Macro) (arg : Node) :
    ReportsPlaced A (chooseOverload group arg).2 := by
  unfold chooseOverload
  split
  · exact reportsPlaced_nil
  · exact reportsPlaced_of_none (by simp [Report.error, Report.errorAt])
  · exact reportsPlaced_of_none (by simp [Report.error, Report.errorAt])

theorem searchGroup_placed (kind : MacroKind) (group : List Macro) (arg : Node) :
    ReportsPlaced A (searchGroup kind group arg).2 := by
  unfold searchGroup
  split
  · split
    · split
      · exact chooseOverload_placed _ _
      · exact reportsPlaced_of_none (by simp [Report.error, Report.errorAt])
    · exact chooseOverload_placed _ _
  · exact reportsPlaced_nil

/-! ## Everything stands somewhere -/

theorem paramsPlaced_true (ps : List Param) : ParamsPlaced (fun _ => True) ps :=
  fun _ _ d _ => d.placed_true

mutual

theorem Macro.placed_true (m : Macro) : m.Placed (fun _ => True) fun _ => True :=
  match m with
  | .template _ body edits =>
    .template (paramsPlaced_true _) body.placed_true (callees_placed_true edits)
  | .native _ _ => .native (paramsPlaced_true _) trivial

theorem callees_placed_true (edits : List Edit) (path : Path) (m : Macro)
    (h : Edit.call path m ∈ edits) : m.Placed (fun _ => True) fun _ => True :=
  match edits with
  | [] => by simp at h
  | e :: es =>
    (List.mem_cons.mp h).elim (Edit.callee_placed_true e path m)
      (callees_placed_true es path m)

theorem Edit.callee_placed_true (e : Edit) (path : Path) (m : Macro) (h : .call path m = e) :
    m.Placed (fun _ => True) fun _ => True :=
  match e with
  | .value _ _ => by simp at h
  | .rename _ _ => by simp at h
  | .call _ callee => (Edit.call.inj h).2 ▸ callee.placed_true

end

theorem Template.placed_true (t : Template) : t.Placed (fun _ => True) fun _ => True :=
  ⟨trivial, paramsPlaced_true _, fun _ _ m _ => m.placed_true⟩

end ConfigScript
