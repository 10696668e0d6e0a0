import ConfigScript.Macro.Apply
import ConfigScript.Proofs.Macro.Replay
import ConfigScript.Proofs.Node.Information

/-! # Macros do not look at information

Binding an argument and filling in a template come to the same, up to information, on arguments
that are equal up to information. So does applying a macro, as long as the native code in it does
not look at information or at the copy flag where it succeeds without a word. -/

namespace ConfigScript

open Node (withoutInfo)

/-! ## Binding -/

/-- The same reports, and the same nodes up to information. -/
def BoundAlike (x y : Option (List Node) × List Report) : Prop :=
  x.2 = y.2 ∧ x.1.map (List.map withoutInfo) = y.1.map (List.map withoutInfo)

theorem bindProperties_alike (params : List Param) {ps qs : List (String × Node)}
    (h : (ps.map fun p => (p.1, p.2.withoutInfo)) = qs.map fun p => (p.1, p.2.withoutInfo)) :
    BoundAlike (bindProperties params ps) (bindProperties params qs) := by
  have hget (key : String) : (Properties.get? key ps).map withoutInfo
      = (Properties.get? key qs).map withoutInfo := by
    rw [Properties.get?, Properties.get?, ← Node.lookup_map, ← Node.lookup_map, h]
  have hvalue (p : Param) : ((Properties.get? p.name ps).or p.default).map withoutInfo
      = ((Properties.get? p.name qs).or p.default).map withoutInfo := by
    rw [Option.map_or, Option.map_or, hget]
  have hnone (p : Param) : ((Properties.get? p.name ps).or p.default).isNone
      = ((Properties.get? p.name qs).or p.default).isNone := by
    rw [← Option.isNone_map (f := withoutInfo), hvalue, Option.isNone_map]
  have hkeys : ps.map Prod.fst = qs.map Prod.fst := by
    have hfst := congrArg (List.map Prod.fst) h
    simpa only [List.map_map, Function.comp_def] using hfst
  unfold bindProperties BoundAlike
  simp only [List.filter_map, List.map_map, List.filterMap_map, List.isEmpty_map,
    Function.comp_def, hnone]
  constructor
  · refine congrArg _ ?_
    have hunused := congrArg (fun keys => (keys.filter fun key =>
      !params.any fun p => p.name == key).map
        fun key => Report.warning s!"Unused argument '{key}'") hkeys
    simpa only [List.filter_map, List.map_map, Function.comp_def] using hunused
  · split
    · simp only [Option.map_some, List.map_filterMap, hvalue]
    · rfl

theorem bindItems_alike (params : List Param) {xs ys : List Node}
    (h : xs.map withoutInfo = ys.map withoutInfo) :
    BoundAlike (bindItems params xs) (bindItems params ys) := by
  have hlen : xs.length = ys.length := by simpa using congrArg List.length h
  unfold bindItems BoundAlike
  rw [hlen]
  split
  · exact ⟨rfl, rfl⟩
  · refine ⟨rfl, ?_⟩
    cases defaultsOf (params.drop ys.length) with
    | none => rfl
    | some ds => simp only [Option.map_some, List.map_append, List.map_take, h]

theorem items?_alike {m n : Node} (hmn : m.withoutInfo = n.withoutInfo) :
    (m.items? = none ∧ n.items? = none)
      ∨ ∃ xs ys, m.items? = some xs ∧ n.items? = some ys
        ∧ xs.map withoutInfo = ys.map withoutInfo := by
  have hitems := (Node.items?_withoutInfo m).symm.trans
    ((congrArg Node.items? hmn).trans (Node.items?_withoutInfo n))
  cases hm : m.items? with
  | none =>
    rw [hm] at hitems
    exact .inl ⟨rfl, Option.map_eq_none_iff.mp hitems.symm⟩
  | some xs =>
    rw [hm] at hitems
    obtain ⟨ys, hn, hys⟩ := Option.map_eq_some_iff.mp hitems.symm
    exact .inr ⟨xs, ys, rfl, hn, hys.symm⟩

theorem bindBracketed_alike (h : MacroHead) {m n : Node} (hmn : m.withoutInfo = n.withoutInfo) :
    BoundAlike (bindBracketed h m) (bindBracketed h n) := by
  unfold bindBracketed
  split
  · have hprops := (Node.properties?_withoutInfo m).symm.trans
      ((congrArg Node.properties? hmn).trans (Node.properties?_withoutInfo n))
    cases hm : m.properties? with
    | none =>
      rw [hm] at hprops
      rw [Option.map_eq_none_iff.mp hprops.symm]
      exact ⟨rfl, rfl⟩
    | some ps =>
      rw [hm] at hprops
      obtain ⟨qs, hn, hqs⟩ := Option.map_eq_some_iff.mp hprops.symm
      rw [hn]
      exact bindProperties_alike h.params hqs.symm
  · rcases items?_alike hmn with ⟨hm, hn⟩ | ⟨xs, ys, hm, hn, hxy⟩
    · rw [hm, hn]
      exact ⟨rfl, rfl⟩
    · rw [hm, hn]
      exact bindItems_alike h.params hxy

theorem surplusWarning_alike (expected : Nat) {xs ys : List Node}
    (h : xs.map withoutInfo = ys.map withoutInfo) :
    surplusWarning expected xs = surplusWarning expected ys := by
  have hlen : xs.length = ys.length := by simpa using congrArg List.length h
  rw [surplusWarning, surplusWarning, hlen]

theorem bind_alike (h : MacroHead) {m n : Node} (hmn : m.withoutInfo = n.withoutInfo) :
    BoundAlike (h.bind m) (h.bind n) := by
  unfold MacroHead.bind
  rcases items?_alike hmn with ⟨hm, hn⟩ | ⟨xs, ys, hm, hn, hxy⟩
  · rw [hm, hn]
    split
    · exact ⟨rfl, rfl⟩
    · exact ⟨rfl, rfl⟩
    · split
      · exact ⟨rfl, rfl⟩
      · exact bindBracketed_alike h hmn
  · rw [hm, hn]
    split
    · exact ⟨rfl, rfl⟩
    · cases xs with
      | nil =>
        rw [List.map_eq_nil_iff.mp hxy.symm]
        exact ⟨rfl, rfl⟩
      | cons x xs =>
        obtain ⟨y, ys, rfl, hy, hys⟩ := List.map_eq_cons_iff.mp hxy.symm
        exact ⟨surplusWarning_alike 1 hxy, by simp [hy]⟩
    · split
      · cases xs with
        | nil =>
          rw [List.map_eq_nil_iff.mp hxy.symm]
          exact ⟨rfl, rfl⟩
        | cons x xs =>
          obtain ⟨y, ys, rfl, hy, hys⟩ := List.map_eq_cons_iff.mp hxy.symm
          cases xs with
          | nil =>
            rw [List.map_eq_nil_iff.mp hys]
            exact ⟨rfl, rfl⟩
          | cons a xs =>
            obtain ⟨b, ys, rfl, hb, -⟩ := List.map_eq_cons_iff.mp hys
            obtain ⟨hrs, hbound⟩ := bindBracketed_alike h hb.symm
            refine ⟨?_, ?_⟩
            · simp only [surplusWarning_alike 2 hxy, hrs]
            · have hcons := congrArg (Option.map (x.withoutInfo :: ·)) hbound
              simpa [Option.map_map, Function.comp_def, hy] using hcons
      · exact bindBracketed_alike h hmn

theorem shapeErrors_alike (h : MacroHead) (i : Nat) (shapes : List ShapeSet) {xs ys : List Node}
    (hxy : xs.map withoutInfo = ys.map withoutInfo) :
    h.shapeErrors i (shapes.zip xs) = h.shapeErrors i (shapes.zip ys) := by
  induction shapes generalizing i xs ys with
  | nil => rfl
  | cons shape shapes ih =>
    cases xs with
    | nil => rw [List.map_eq_nil_iff.mp hxy.symm]
    | cons x xs =>
      obtain ⟨y, ys, rfl, hy, hys⟩ := List.map_eq_cons_iff.mp hxy.symm
      have hshape : x.shape = y.shape := by
        rw [← Node.shape_withoutInfo, ← hy, Node.shape_withoutInfo]
      have haccepts : shape.accepts x = shape.accepts y := by
        rw [ShapeSet.accepts, ShapeSet.accepts, hshape]
      rw [List.zip_cons_cons, List.zip_cons_cons, MacroHead.shapeErrors, MacroHead.shapeErrors,
        haccepts, hshape, ih _ hys.symm]

theorem arguments_alike (h : MacroHead) {m n : Node} (hmn : m.withoutInfo = n.withoutInfo) :
    BoundAlike (h.arguments m) (h.arguments n) := by
  obtain ⟨hrs, hargs⟩ := bind_alike h hmn
  unfold MacroHead.arguments
  generalize h.bind m = x at hrs hargs ⊢
  generalize h.bind n = y at hrs hargs ⊢
  obtain ⟨xs, rs⟩ := x
  obtain ⟨ys, ss⟩ := y
  cases xs with
  | none =>
    simp only [Option.map_none, eq_comm, Option.map_eq_none_iff] at hargs
    subst hargs
    exact ⟨hrs, rfl⟩
  | some xs =>
    obtain ⟨ys, rfl, hys⟩ := Option.map_eq_some_iff.mp hargs.symm
    cases h.inferences with
    | none => exact ⟨hrs, by simp [hys]⟩
    | some shapes =>
      have herrors := shapeErrors_alike h 0 shapes hys.symm
      simp only at hrs
      refine ⟨by simp only [herrors, hrs], ?_⟩
      simp only [herrors]
      split
      · simp [hys]
      · rfl

/-! ## Application -/

namespace Expansion

/-- Where the first expansion produces a node without a word, so does the second, and the nodes are
equal up to information. -/
def Leads (e f : Expansion) : Prop :=
  ∀ n, e = produced n → ∃ m, f = produced m ∧ m.withoutInfo = n.withoutInfo

theorem Leads.produced {m n : Node} (h : n.withoutInfo = m.withoutInfo) :
    Leads (Expansion.produced m) (Expansion.produced n) := by
  intro k hk
  simp only [Expansion.produced, mk.injEq, MacroResult.produced.injEq, and_true] at hk
  exact ⟨n, rfl, hk ▸ h⟩

theorem after_eq_produced {e : Expansion} {rs : List Report} {n : Node}
    (h : e.after rs = Expansion.produced n) : rs = [] ∧ e = Expansion.produced n := by
  obtain ⟨r, ss⟩ := e
  simp only [after, Expansion.produced, mk.injEq, List.append_eq_nil_iff] at h ⊢
  exact ⟨h.2.1, h.1, h.2.2⟩

theorem andThen_eq_produced {e : Expansion} {f : Node → Expansion} {n : Node}
    (h : e.andThen f = Expansion.produced n) :
    ∃ m, e = Expansion.produced m ∧ f m = Expansion.produced n := by
  obtain ⟨r, rs⟩ := e
  cases r with
  | produced m =>
    obtain ⟨rfl, hf⟩ := after_eq_produced h
    exact ⟨m, rfl, hf⟩
  | refused => simp [andThen, Expansion.produced] at h
  | fault f => simp [andThen, Expansion.produced] at h
  | crashed message => simp [andThen, Expansion.produced] at h

theorem Leads.after {e f : Expansion} (h : e.Leads f) (rs : List Report) :
    (e.after rs).Leads (f.after rs) := by
  intro n hn
  obtain ⟨rfl, he⟩ := after_eq_produced hn
  obtain ⟨m, hm, hmn⟩ := h n he
  exact ⟨m, by rw [hm]; rfl, hmn⟩

theorem Leads.andThen {e e' : Expansion} {f f' : Node → Expansion} (h : e.Leads e')
    (hf : ∀ m m', m'.withoutInfo = m.withoutInfo → (f m).Leads (f' m')) :
    (e.andThen f).Leads (e'.andThen f') := by
  intro n hn
  obtain ⟨m, hm, hfm⟩ := andThen_eq_produced hn
  obtain ⟨m', hm', hmm⟩ := h m hm
  obtain ⟨n', hn', hnn⟩ := hf m m' hmm n hfm
  exact ⟨n', by rw [hm', produced_andThen, hn'], hnn⟩

end Expansion

open Expansion

/-- A macro whose native code, that of the macros it calls included, produces equal nodes from
equal arguments, whatever the information on them and whatever the copy flag, where it produces one
without a word. -/
inductive Macro.Steady : Macro → Prop
  | template {h : MacroHead} {body : Node} {edits : List Edit} :
    (∀ path m, Edit.call path m ∈ edits → m.Steady) → Steady (.template h body edits)
  | native {h : MacroHead} {run : List Node → Bool → Expansion} :
    (∀ xs ys copy copy', ys.map withoutInfo = xs.map withoutInfo →
      (run xs copy).Leads (run ys copy')) → Steady (.native h run)

theorem placeAt_leads (path : Path) {m n new new' : Node} (hmn : n.withoutInfo = m.withoutInfo)
    (hnew : new'.withoutInfo = new.withoutInfo) :
    (placeAt path m new).Leads (placeAt path n new') := by
  intro k hk
  have hreplace :
      (n.replace? path new').map withoutInfo = (m.replace? path new).map withoutInfo := by
    rw [← Node.replace?_withoutInfo, ← Node.replace?_withoutInfo, hmn, hnew]
  unfold placeAt Node.replace at hk ⊢
  cases hm : m.replace? path new with
  | none => simp [hm, fault, produced] at hk
  | some j =>
    rw [hm] at hreplace
    obtain ⟨j', hj', hjj⟩ := Option.map_eq_some_iff.mp hreplace
    simp only [hm, produced, mk.injEq, MacroResult.produced.injEq, and_true] at hk
    exact ⟨j', by rw [hj'], hk ▸ hjj⟩

theorem argumentAt_leads {xs ys : List Node} (hxy : ys.map withoutInfo = xs.map withoutInfo)
    (i : Nat) {f g : Node → Expansion}
    (h : ∀ m n, n.withoutInfo = m.withoutInfo → (f m).Leads (g n)) :
    (argumentAt xs i f).Leads (argumentAt ys i g) := by
  have hget : (ys[i]?).map withoutInfo = (xs[i]?).map withoutInfo := by
    rw [← List.getElem?_map, ← List.getElem?_map, hxy]
  unfold argumentAt
  cases hx : xs[i]? with
  | none => simp [Leads, fault, produced]
  | some x =>
    rw [hx] at hget
    obtain ⟨y, hy, hyx⟩ := Option.map_eq_some_iff.mp hget
    rw [hy]
    exact h x y hyx

/-- An edit goes on with what stands at its path. -/
theorem at_leads {m n : Node} (hmn : n.withoutInfo = m.withoutInfo) (path : Path) (f : Fault)
    {g g' : Node → Expansion}
    (h : ∀ slot slot', slot'.withoutInfo = slot.withoutInfo → (g slot).Leads (g' slot')) :
    (match m.get? path with
      | none => .fault f
      | some slot => g slot : Expansion).Leads
      (match n.get? path with
        | none => .fault f
        | some slot => g' slot) := by
  have hget : (n.get? path).map withoutInfo = (m.get? path).map withoutInfo := by
    rw [← Node.get?_withoutInfo, ← Node.get?_withoutInfo, hmn]
  cases hm : m.get? path with
  | none => simp [Leads, fault, produced]
  | some slot =>
    rw [hm] at hget
    obtain ⟨slot', hn, hss⟩ := Option.map_eq_some_iff.mp hget
    rw [hn]
    exact h slot slot' hss

theorem Edit.apply_leads {e : Edit} {copy copy' : Bool}
    (h : ∀ path m, e = .call path m → ∀ arg arg', arg'.withoutInfo = arg.withoutInfo →
      (m.apply arg copy).Leads (m.apply arg' copy'))
    {xs ys : List Node} (hxy : ys.map withoutInfo = xs.map withoutInfo) {m n : Node}
    (hmn : n.withoutInfo = m.withoutInfo) : (e.apply xs m copy).Leads (e.apply ys n copy') := by
  cases e with
  | value path i =>
    rw [Edit.apply, Edit.apply]
    refine at_leads hmn path _ fun _ _ _ => ?_
    exact argumentAt_leads hxy i fun a b hab => placeAt_leads path hmn hab
  | rename path i =>
    rw [Edit.apply, Edit.apply]
    refine at_leads hmn path _ fun slot slot' hss => argumentAt_leads hxy i fun a b hab => ?_
    cases a with
    | primitive name j =>
      cases b with
      | primitive name' j' =>
        simp only [Node.withoutInfo, Node.primitive.injEq, and_true] at hab
        subst hab
        refine placeAt_leads path hmn ?_
        rw [Node.withoutInfo_setName, Node.withoutInfo_setName, hss]
      | object name' props j' => simp [Node.withoutInfo] at hab
      | list name' op items j' => simp [Node.withoutInfo] at hab
    | object name props j => simp [Leads, produced]
    | list name op items j => simp [Leads, produced]
  | call path callee =>
    rw [Edit.apply, Edit.apply]
    refine at_leads hmn path _ fun slot slot' hss => ?_
    exact (h path callee rfl slot slot' hss).andThen fun a b hab => placeAt_leads path hmn hab

theorem applyEdits_leads {edits : List Edit} {copy copy' : Bool}
    (h : ∀ path m, Edit.call path m ∈ edits → ∀ arg arg', arg'.withoutInfo = arg.withoutInfo →
      (m.apply arg copy).Leads (m.apply arg' copy'))
    {xs ys : List Node} (hxy : ys.map withoutInfo = xs.map withoutInfo) {m n : Node}
    (hmn : n.withoutInfo = m.withoutInfo) :
    (applyEdits edits xs m copy).Leads (applyEdits edits ys n copy') := by
  induction edits generalizing m n with
  | nil =>
    rw [applyEdits, applyEdits]
    exact Leads.produced hmn
  | cons e es ih =>
    rw [applyEdits, applyEdits]
    refine Leads.andThen (Edit.apply_leads (fun path m he => ?_) hxy hmn) fun a b hab => ?_
    · exact h path m (he ▸ List.mem_cons_self)
    · exact ih (fun path m hm => h path m (List.mem_cons_of_mem e hm)) hab

theorem MacroHead.arguments_leads (h : MacroHead) {arg arg' : Node}
    (ha : arg'.withoutInfo = arg.withoutInfo) {f g : List Node → Expansion}
    (hfg : ∀ xs ys, ys.map withoutInfo = xs.map withoutInfo → (f xs).Leads (g ys)) :
    (match h.arguments arg with
      | (some args, rs) => (f args).after rs
      | (none, rs) => ⟨.refused, rs⟩).Leads
    (match h.arguments arg' with
      | (some args, rs) => (g args).after rs
      | (none, rs) => ⟨.refused, rs⟩) := by
  obtain ⟨hrs, hargs⟩ := arguments_alike h ha
  generalize h.arguments arg = x at hrs hargs ⊢
  generalize h.arguments arg' = y at hrs hargs ⊢
  obtain ⟨xs, rs⟩ := x
  obtain ⟨ys, ss⟩ := y
  simp only at hrs
  subst hrs
  cases xs with
  | none => simp [Leads, produced]
  | some xs =>
    obtain ⟨ys, rfl, hys⟩ := Option.map_eq_some_iff.mp hargs
    exact (hfg xs ys hys).after _

/-- Applied to equal nodes, a steady macro produces equal nodes. -/
theorem Macro.Steady.apply_leads {m : Macro} (h : m.Steady) {arg arg' : Node}
    (ha : arg'.withoutInfo = arg.withoutInfo) (copy copy' : Bool) :
    (m.apply arg copy).Leads (m.apply arg' copy') := by
  induction h generalizing arg arg' with
  | @template h body edits _ ih =>
    rw [Macro.apply, Macro.apply]
    exact h.arguments_leads ha fun xs ys hys =>
      applyEdits_leads (fun path m hm arg arg' ha => ih path m hm ha) hys rfl
  | @native h run hrun =>
    rw [Macro.apply, Macro.apply]
    exact h.arguments_leads ha fun xs ys hys => hrun xs ys copy copy' hys

end ConfigScript
