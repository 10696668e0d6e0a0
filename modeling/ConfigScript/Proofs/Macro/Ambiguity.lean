import ConfigScript.Proofs.Macro.Search

/-! # Overloads that tie

Which of the overloads that a registry keeps can tie on a call, and which of these ties have been
announced. Positional overloads never have the same score on every call, and each pair of them that
ties somewhere has been announced. Object macros can have the same score everywhere, where they
declare the same parameters in another order or with other default values, and their ties have been
announced just where they require the same keys. -/

namespace ConfigScript

open MacroRegistry (Change DefinedAfter after kept overlapNotice overlapReport
  overlapReport_mem_add overlapped)

section

variable {a b : Macro}

/-! ## The tests on definition -/

theorem drops_eq_overwrites (h : a.signature = b.signature)
    (hk : b.kind.takesParameters = true) : (Change.add b).drops a = b.overwrites a := by
  simp [Change.drops, h, hk]

theorem overwrites_iff_of_positional (h : b.kind.isKeyed = false) :
    b.overwrites a = true
      ↔ a.params.length = b.params.length ∧ requiredCount a.params = requiredCount b.params := by
  rw [Macro.overwrites, h, if_neg Bool.false_ne_true, Bool.and_eq_true, beq_iff_eq, beq_iff_eq]
  exact and_congr eq_comm eq_comm

theorem overlaps_iff_of_positional (h : b.kind.isKeyed = false) :
    b.overlaps a = true
      ↔ requiredCount a.params ≤ b.params.length ∧ requiredCount b.params ≤ a.params.length := by
  rw [Macro.overlaps, h, if_neg Bool.false_ne_true, Bool.and_eq_true, decide_eq_true_iff,
    decide_eq_true_iff]

theorem overlaps_iff_of_keyed (h : b.kind.isKeyed = true) :
    b.overlaps a = true ↔ requiredNames a.params = requiredNames b.params := by
  rw [Macro.overlaps, if_pos h, Bool.and_eq_true, List.all_eq_true, List.all_eq_true]
  simp only [List.contains_iff_mem, Finset.Subset.antisymm_iff, Finset.subset_iff, requiredNames,
    List.mem_toFinset]
  exact and_comm

/-! ## Pairs of a group -/

variable {cs : List Change} {s : Signature}

theorem mem_of_pair_sublist {ms : List Macro} (h : [a, b].Sublist ms) : a ∈ ms ∧ b ∈ ms :=
  ⟨h.subset List.mem_cons_self, h.subset (List.mem_cons_of_mem a List.mem_cons_self)⟩

theorem signature_of_mem_group {m : Macro} (h : m ∈ (after cs).group s) : m.signature = s :=
  beq_iff_eq.mp (List.mem_filter.mp h).2

theorem definedAfter_of_group (h : [a, b].Sublist ((after cs).group s)) :
    ∃ before later, DefinedAfter cs a b before later := by
  rw [MacroRegistry.group_after] at h
  exact MacroRegistry.definedAfter_of_kept (h.trans List.filter_sublist)

theorem not_overwrites_of_group (hs : s.kind.takesParameters = true)
    (h : [a, b].Sublist ((after cs).group s)) : b.overwrites a = false := by
  have ha := signature_of_mem_group (mem_of_pair_sublist h).1
  have hb := signature_of_mem_group (mem_of_pair_sublist h).2
  obtain ⟨before, later, hdefined⟩ := definedAfter_of_group h
  rw [← drops_eq_overwrites (ha.trans hb.symm) (by rw [Macro.kind, hb, hs])]
  exact hdefined.spared

theorem mem_overlapped_iff {before later : List Change}
    (h : [a, b].Sublist ((after cs).group s)) (hdefined : DefinedAfter cs a b before later) :
    a ∈ overlapped (after before) b ↔ b.overlaps a = true := by
  have ha := signature_of_mem_group (mem_of_pair_sublist h).1
  have hb := signature_of_mem_group (mem_of_pair_sublist h).2
  have hpresent := hdefined.present
  rw [ha.trans hb.symm] at hpresent
  simp [overlapped, List.mem_filter, hpresent, hdefined.spared]

theorem group_after_pair (ha : a.signature = s) (hb : b.signature = s)
    (h : (Change.add b).drops a = false) : (after [.add a, .add b]).group s = [a, b] := by
  rw [MacroRegistry.group_after]
  simp [kept, Change.added, h, ha, hb]

theorem valid_of_mem_pair (ha : a.Valid) (hb : b.Valid) :
    ∀ m, Change.add m ∈ [.add a, .add b] → m.Valid := by
  simp only [List.mem_cons, Change.add.injEq, List.not_mem_nil, or_false]
  rintro m (rfl | rfl)
  · exact ha
  · exact hb

theorem bestFits_pair {kind : MacroKind} {call : Node} (h : a.fit kind call = b.fit kind call) :
    bestFits kind [a, b] call = [] ∨ bestFits kind [a, b] call = [a, b] := by
  cases hall : [a, b].all fun n => noWorse (b.fit kind call) (n.fit kind call) with
  | false => exact .inl (by simp only [bestFits, List.filter_cons, h, hall]; rfl)
  | true => exact .inr (by simp only [bestFits, List.filter_cons, h, hall]; rfl)

theorem isKeyed_of_mem_group {m : Macro} (h : m ∈ (after cs).group s) :
    m.kind.isKeyed = s.kind.isKeyed := by
  rw [Macro.kind, signature_of_mem_group h]

theorem valid_of_mem_group (hv : ∀ m, Change.add m ∈ cs → m.Valid) {m : Macro}
    (h : m ∈ (after cs).group s) : m.Valid :=
  hv m (MacroRegistry.mem_of_mem_group h)

end

/-! ## Redefinition -/

/-- Of two overloads that a registry keeps, the later one does not overwrite the earlier one. Some
call tells their scores apart, but for object macros that declare the same names and require the
same ones: these have the same score on every call. -/
theorem kept_agree_iff {cs : List Change} (hv : ∀ m, Change.add m ∈ cs → m.Valid) {s : Signature}
    (hs : s.kind.takesParameters = true) {a b : Macro}
    (hab : [a, b].Sublist ((after cs).group s)) :
    b.overwrites a = false
      ∧ ((∀ call : Node, call.Keyed → a.fit s.kind call = b.fit s.kind call)
        ↔ s.kind.isKeyed = true ∧ declaredNames a.params = declaredNames b.params
          ∧ requiredNames a.params = requiredNames b.params) := by
  obtain ⟨ha, hb⟩ := mem_of_pair_sublist hab
  have hka := isKeyed_of_mem_group ha
  have hkb := isKeyed_of_mem_group hb
  have hspared := not_overwrites_of_group hs hab
  refine ⟨hspared, ?_⟩
  cases hkeyed : s.kind.isKeyed with
  | true =>
    rw [hkeyed] at hka hkb
    rw [fit_agree_iff_of_keyed hka hkb (valid_of_mem_group hv ha) (valid_of_mem_group hv hb)]
    exact (and_iff_right rfl).symm
  | false =>
    rw [hkeyed] at hka hkb
    have hcounts := mt (overwrites_iff_of_positional hkb).mpr (Bool.not_eq_true _ ▸ hspared)
    rw [fit_agree_iff_of_positional hka hkb]
    exact iff_of_false hcounts fun h => Bool.false_ne_true h.1

/-- The parameters in another order. -/
theorem kept_agree_iff_reordered :
    let old := Macro.template ⟨⟨"m", .object⟩, [⟨"a", none⟩, ⟨"b", none⟩], none⟩ (.value "x") []
    let new := Macro.template ⟨⟨"m", .object⟩, [⟨"b", none⟩, ⟨"a", none⟩], none⟩ (.value "y") []
    (∀ m, Change.add m ∈ [.add old, .add new] → m.Valid)
      ∧ [old, new].Sublist ((after [.add old, .add new]).group ⟨"m", .object⟩)
      ∧ new.overwrites old = false
      ∧ ∀ call : Node, call.Keyed → old.fit .object call = new.fit .object call := by
  intro old new
  have hv : ∀ m, Change.add m ∈ [.add old, .add new] → m.Valid :=
    valid_of_mem_pair ⟨rfl, rfl⟩ ⟨rfl, rfl⟩
  have hdrops : (Change.add new).drops old = false := by decide +kernel
  have hgroup : (after [.add old, .add new]).group ⟨"m", .object⟩ = [old, new] :=
    group_after_pair rfl rfl hdrops
  have hab : [old, new].Sublist ((after [.add old, .add new]).group ⟨"m", .object⟩) :=
    hgroup ▸ List.Sublist.refl _
  have hkept := kept_agree_iff hv rfl hab
  exact ⟨hv, hab, hkept.1, hkept.2.mpr ⟨rfl, by decide +kernel, by decide +kernel⟩⟩

/-- A macro that is defined again with another default value: both definitions are kept, and no call
finds either. -/
theorem redefinition_kept :
    let old := Macro.template ⟨⟨"m", .object⟩, [⟨"a", some (.value "1")⟩], none⟩ (.value "x") []
    let new := Macro.template ⟨⟨"m", .object⟩, [⟨"a", some (.value "2")⟩], none⟩ (.value "y") []
    let group := (after [.add old, .add new]).group ⟨"m", .object⟩
    [old, new].Sublist group ∧ (∀ call : Node, old.fit .object call = new.fit .object call)
      ∧ ∀ call : Node, (searchGroup .object group call).1 = none := by
  intro old new group
  have hdrops : (Change.add new).drops old = false := by decide +kernel
  have hgroup : group = [old, new] := group_after_pair rfl rfl hdrops
  have hscore (args : List (String × Node)) :
      keyedScore old.params args = keyedScore new.params args := by
    cases hc : Properties.contains "a" args <;>
      simp [old, new, Macro.params, Macro.head, keyedScore, requiredParams, requiredCount,
        Param.isOptional, hc]
  have hagree (call : Node) : old.fit .object call = new.fit .object call := by
    have hparams : keyedScore old.params = keyedScore new.params := funext hscore
    simp only [Macro.fit, Macro.score, hparams]
    rfl
  refine ⟨hgroup ▸ List.Sublist.refl _, hagree, fun call => ?_⟩
  refine Option.eq_none_iff_forall_ne_some.mpr fun m hm => ?_
  have hsignature : ∀ m ∈ [old, new], m.signature = ⟨"m", .object⟩ := by
    simp [old, new, Macro.signature, Macro.head]
  rw [hgroup, searchGroup_fst_iff rfl (by simp) hsignature] at hm
  rcases bestFits_pair (hagree call) with hbest | hbest
  · simp [hbest] at hm
  · simp [hbest] at hm

/-! ## Announcements -/

/-- Two overloads of an object macro that a registry keeps tie on some call just where what each
requires and the other does not declare is no more than what the other declares alone. That the
later one may overlap with the earlier one was announced on its definition just where both require
the same names. -/
theorem keyed_ties_announced_iff {cs : List Change} (hv : ∀ m, Change.add m ∈ cs → m.Valid)
    {s : Signature} (hs : s.kind.isKeyed = true) {a b : Macro}
    (hab : [a, b].Sublist ((after cs).group s)) :
    (∃ before later, DefinedAfter cs a b before later
      ∧ ((after before).add b).2.filter (fun rep => rep.severity == .info)
        = overlapNotice b (overlapped (after before) b)
      ∧ (a ∈ overlapped (after before) b ↔ requiredNames a.params = requiredNames b.params)
      ∧ (requiredNames a.params = requiredNames b.params →
        ∃ rep ∈ ((after before).add b).2, rep.severity = .info
          ∧ rep.message = "New macro " ++ b.signature.text ++ " possibly overlaps with "
            ++ toString (overlapped (after before) b).length
            ++ " preexisting macro(s).\n  Preexisting macro(s):"
            ++ String.join ((overlapped (after before) b).map fun m => "\n    " ++ m.usage true)
            ++ "\n  New macro:\n    " ++ b.usage true))
    ∧ ((∃ (call : Node) (n : Nat),
        call.Keyed ∧ a.fit s.kind call = some n ∧ b.fit s.kind call = some n)
      ↔ (requiredNames a.params \ declaredNames b.params).card
          ≤ (declaredNames b.params \ declaredNames a.params).card
        ∧ (requiredNames b.params \ declaredNames a.params).card
          ≤ (declaredNames a.params \ declaredNames b.params).card) := by
  obtain ⟨ha, hb⟩ := mem_of_pair_sublist hab
  have hka := (isKeyed_of_mem_group ha).trans hs
  have hkb := (isKeyed_of_mem_group hb).trans hs
  obtain ⟨before, later, hdefined⟩ := definedAfter_of_group hab
  have hlisted : a ∈ overlapped (after before) b
      ↔ requiredNames a.params = requiredNames b.params :=
    (mem_overlapped_iff hab hdefined).trans (overlaps_iff_of_keyed hkb)
  exact ⟨⟨before, later, hdefined, MacroRegistry.add_information _ b, hlisted,
      fun h => ⟨overlapReport b _, overlapReport_mem_add (hlisted.mpr h), rfl, rfl⟩⟩,
    fit_tie_iff_of_keyed hka hkb (valid_of_mem_group hv ha) (valid_of_mem_group hv hb)⟩

/-- Definitions with the same required name, one of them with an optional name more. -/
theorem keyed_ties_announced_optional :
    let old := Macro.template ⟨⟨"m", .object⟩, [⟨"x", none⟩], none⟩ (.value "1") []
    let new := Macro.template ⟨⟨"m", .object⟩, [⟨"x", none⟩, ⟨"y", some (.value "0")⟩], none⟩
      (.value "2") []
    let cs : List Change := [.add old, .add new]
    (∀ m, Change.add m ∈ cs → m.Valid) ∧ [old, new].Sublist ((after cs).group ⟨"m", .object⟩)
      ∧ (∃ before later, DefinedAfter cs old new before later
        ∧ old ∈ overlapped (after before) new
        ∧ ((after before).add new).2 = [⟨.info, "New macro m\x7b\x7d possibly overlaps with "
          ++ "1 preexisting macro(s).\n  Preexisting macro(s):\n    m\x7bx\x7d\n"
          ++ "  New macro:\n    m\x7bx, y = /* default */\x7d", none, []⟩])
      ∧ ∃ (call : Node) (n : Nat),
        call.Keyed ∧ old.fit .object call = some n ∧ new.fit .object call = some n := by
  intro old new cs
  have hv : ∀ m, Change.add m ∈ cs → m.Valid := valid_of_mem_pair ⟨rfl, rfl⟩ ⟨rfl, rfl⟩
  have hdrops : (Change.add new).drops old = false := by decide +kernel
  have hgroup : (after cs).group ⟨"m", .object⟩ = [old, new] := group_after_pair rfl rfl hdrops
  have hab : [old, new].Sublist ((after cs).group ⟨"m", .object⟩) := hgroup ▸ List.Sublist.refl _
  obtain ⟨⟨before, later, hdefined, -, hlisted, -⟩, hties⟩ := keyed_ties_announced_iff hv rfl hab
  obtain rfl := MacroRegistry.definedAfter_pair hdefined
  exact ⟨hv, hab, ⟨[.add old], later, hdefined, hlisted.mpr (by decide +kernel),
    by decide +kernel⟩, hties.mpr (by decide +kernel)⟩

/-- A call with the keys that either definition requires ties them, and nothing was said of it when
the second one was added. -/
theorem keyed_tie_silent :
    let old := Macro.template ⟨⟨"m", .object⟩, [⟨"x", none⟩], none⟩ (.value "1") []
    let new := Macro.template ⟨⟨"m", .object⟩, [⟨"y", none⟩], none⟩ (.value "2") []
    let s : Signature := ⟨"m", .object⟩
    let group := (after [.add old, .add new]).group s
    let call := Node.object "m" [("x", .value "1"), ("y", .value "2")] {}
    ((after [.add old]).add new).2 = []
      ∧ [old, new].Sublist (bestFits .object group call)
      ∧ searchGroup .object group call = (none, [Report.error
        "Ambiguous usage of macro m\x7b\x7d:\n  m\x7bx\x7d\n  m\x7by\x7d"]) := by
  intro old new s group call
  have hdrops : (Change.add new).drops old = false := by decide +kernel
  have hgroup : group = [old, new] := group_after_pair rfl rfl hdrops
  have hold : old.fit .object call = some 1 := by decide +kernel
  have hnew : new.fit .object call = some 1 := by decide +kernel
  have hbest : bestFits .object group call = [old, new] := by
    simp [bestFits, hgroup, hold, hnew, noWorse]
  have hsignature : ∀ m ∈ group, m.signature = s := by
    simp [hgroup, old, new, s, Macro.signature, Macro.head]
  have htext : usageList s!"Ambiguous usage of macro {s.text}:" [old, new]
      = "Ambiguous usage of macro m\x7b\x7d:\n  m\x7bx\x7d\n  m\x7by\x7d" := by decide +kernel
  refine ⟨by decide +kernel, hbest ▸ List.Sublist.refl _, ?_⟩
  rw [searchGroup_of_several rfl hsignature (by simp [hbest]), hbest, htext]

/-- Positional macros are said to overlap just where they have the same score on some number of
elements. So whichever overloads of a positional macro a search finds to be tied, the definition of
the later one announced that it may overlap with the earlier one. -/
theorem positional_ties_announced (cs : List Change) {s : Signature}
    (hs : s.kind.isPositional = true) :
    (∀ a b : Macro, a.kind.isPositional = true → b.kind.isPositional = true →
      (b.overlaps a = true ↔ ∃ count n : Nat, ∀ name op items info, items.length = count →
        a.score (.list name op items info) = some n
          ∧ b.score (.list name op items info) = some n))
    ∧ ∀ (call : Node) (a b : Macro), [a, b].Sublist (bestFits s.kind ((after cs).group s) call) →
      ∃ before later, ∃ listed : List Macro, DefinedAfter cs a b before later ∧ a ∈ listed
        ∧ ∃ rep ∈ ((after before).add b).2, rep.severity = .info
          ∧ rep.message = "New macro " ++ b.signature.text ++ " possibly overlaps with "
            ++ toString listed.length ++ " preexisting macro(s).\n  Preexisting macro(s):"
            ++ String.join (listed.map fun m => "\n    " ++ m.usage true)
            ++ "\n  New macro:\n    " ++ b.usage true := by
  constructor
  · intro a b ha hb
    have hka := isKeyed_of_isPositional ha
    have hkb := isKeyed_of_isPositional hb
    rw [overlaps_iff_of_positional hkb, ← positionalScore_tie_iff]
    refine exists₂_congr fun count n => ?_
    simp only [score_of_positional hka, score_of_positional hkb, Node.items?, Option.bind_some]
    constructor
    · rintro h name op items - rfl
      exact h
    · intro h
      simpa using h "" false (List.replicate count (.value "")) {} List.length_replicate
  · intro call a b hbest
    have hab : [a, b].Sublist ((after cs).group s) := hbest.trans List.filter_sublist
    obtain ⟨ha, hb⟩ := mem_of_pair_sublist hab
    have hkeyed := isKeyed_of_isPositional hs
    have hka := (isKeyed_of_mem_group ha).trans hkeyed
    have hkb := (isKeyed_of_mem_group hb).trans hkeyed
    obtain ⟨hba, hbb⟩ := mem_of_pair_sublist hbest
    obtain ⟨n, hna, hnb⟩ := tie_of_mem_bestFits hba hbb
    obtain ⟨count, hties⟩ := positionalScore_tie_of_fit hka hkb hna hnb
    have hoverlaps : b.overlaps a = true :=
      (overlaps_iff_of_positional hkb).mpr (positionalScore_tie_iff.mp ⟨count, n, hties⟩)
    obtain ⟨before, later, hdefined⟩ := definedAfter_of_group hab
    have hlisted := (mem_overlapped_iff hab hdefined).mpr hoverlaps
    exact ⟨before, later, overlapped (after before) b, hdefined, hlisted, overlapReport b _,
      overlapReport_mem_add hlisted, rfl, rfl⟩

/-- Two overloads that both take a call with two elements, and use all of them. -/
theorem positional_ties_announced_default :
    let old := Macro.template ⟨⟨"f", .list⟩, [⟨"a", none⟩, ⟨"b", none⟩], none⟩ (.value "2") []
    let new := Macro.template ⟨⟨"f", .list⟩, [⟨"a", none⟩, ⟨"b", some (.value "d")⟩], none⟩
      (.value "1") []
    let cs : List Change := [.add old, .add new]
    let call := Node.list "f" false [.value "x", .value "y"] {}
    [old, new].Sublist (bestFits .list ((after cs).group ⟨"f", .list⟩) call)
      ∧ ∃ before later, ∃ listed : List Macro, DefinedAfter cs old new before later ∧ old ∈ listed
        ∧ ((after before).add new).2 = [⟨.info, "New macro f[] possibly overlaps with "
          ++ "1 preexisting macro(s).\n  Preexisting macro(s):\n    f[a, b]\n"
          ++ "  New macro:\n    f[a, b = /* default */]", none, []⟩] := by
  intro old new cs call
  have hdrops : (Change.add new).drops old = false := by decide +kernel
  have hgroup : (after cs).group ⟨"f", .list⟩ = [old, new] := group_after_pair rfl rfl hdrops
  have hbest : [old, new].Sublist (bestFits .list ((after cs).group ⟨"f", .list⟩) call) :=
    hgroup ▸ List.Sublist.refl [old, new]
  obtain ⟨before, later, listed, hdefined, hlisted, -⟩ :=
    (positional_ties_announced cs (s := ⟨"f", .list⟩) rfl).2 call old new hbest
  obtain rfl := MacroRegistry.definedAfter_pair hdefined
  exact ⟨hbest, [.add old], later, listed, hdefined, hlisted, by decide +kernel⟩

end ConfigScript
