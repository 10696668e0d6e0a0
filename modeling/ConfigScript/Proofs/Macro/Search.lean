import ConfigScript.Proofs.Macro.Fit
import ConfigScript.Proofs.Macro.Registration
import ConfigScript.Proofs.Macro.Selection

/-! # The overload that a call means

A search finds the only overload of the least score. Where there is none, or where several have it,
one error lists what there is to choose from. In which order the overloads were defined makes no
difference to what is found. -/

namespace ConfigScript

open MacroRegistry (Change after kept group_after)

/-- The overloads that fit a call and that no other fits better, in order. -/
def bestFits (kind : MacroKind) (group : List Macro) (call : Node) : List Macro :=
  group.filter fun m => group.all fun n => noWorse (m.fit kind call) (n.fit kind call)

section

variable {kind : MacroKind} {group : List Macro} {call : Node}

theorem mem_bestFits_iff {m : Macro} :
    m ∈ bestFits kind group call ↔ m ∈ group ∧ ∃ n, m.fit kind call = some n
      ∧ ∀ m' ∈ group, ∀ n', m'.fit kind call = some n' → n ≤ n' := by
  rw [bestFits, List.mem_filter, List.all_eq_true]
  refine and_congr_right fun hm => ?_
  constructor
  · intro hall
    cases hfit : m.fit kind call with
    | none =>
      have hself := hall m hm
      rw [hfit] at hself
      exact absurd hself (by simp [noWorse])
    | some n =>
      refine ⟨n, rfl, fun m' hm' n' hn' => ?_⟩
      have hle := hall m' hm'
      rw [hfit, hn'] at hle
      simpa [noWorse] using hle
  · rintro ⟨n, hn, hleast⟩ m' hm'
    rw [hn]
    cases hfit : m'.fit kind call with
    | none => rfl
    | some n' => simpa [noWorse] using hleast m' hm' n' hfit

theorem tie_of_mem_bestFits {a b : Macro} (ha : a ∈ bestFits kind group call)
    (hb : b ∈ bestFits kind group call) :
    ∃ n, a.fit kind call = some n ∧ b.fit kind call = some n := by
  obtain ⟨hma, n, hna, hleasta⟩ := mem_bestFits_iff.mp ha
  obtain ⟨hmb, k, hkb, hleastb⟩ := mem_bestFits_iff.mp hb
  have hnk : n = k := Nat.le_antisymm (hleasta b hmb k hkb) (hleastb a hma n hna)
  exact ⟨n, hna, hnk ▸ hkb⟩

theorem bestFits_eq_bestOf (kind : MacroKind) (group : List Macro) (call : Node) :
    bestFits kind group call = bestOf (fun m => m.fit kind call) group :=
  (bestOf_eq_filter _ group).symm

theorem bestFits_of_bracketed? {arg : Node} (h : kind.bracketed? call = some arg) :
    bestFits kind group call = bestOf (fun m => m.score arg) group := by
  rw [bestFits_eq_bestOf]
  simp only [fit_eq_score h]

theorem bestFits_perm {other : List Macro} (h : other.Perm group) :
    (bestFits kind other call).Perm (bestFits kind group call) := by
  rw [bestFits_eq_bestOf, bestFits_eq_bestOf]
  exact bestOf_perm h

theorem bestFits_eq_nil_iff :
    bestFits kind group call = [] ↔ ∀ m ∈ group, m.fit kind call = none := by
  rw [bestFits_eq_bestOf]
  exact bestOf_eq_nil_iff

theorem bracketed?_of_bestFits {m : Macro} (h : m ∈ bestFits kind group call) :
    ∃ arg, kind.bracketed? call = some arg := by
  obtain ⟨-, n, hn, -⟩ := mem_bestFits_iff.mp h
  obtain ⟨arg, harg, -⟩ := Option.bind_eq_some_iff.mp hn
  exact ⟨arg, harg⟩

/-! ## What is found -/

theorem searchGroup_eq (hk : kind.takesParameters = true) :
    searchGroup kind group call
      = match kind.bracketed? call with
        | some arg => chooseOverload group arg
        | none => (none, [Report.error "Expected pair of 'self' and 'args' as argument"]) := by
  unfold searchGroup MacroKind.bracketed?
  rw [if_pos hk]
  split
  · cases call.items? with
    | none => rfl
    | some items =>
      match items with
      | [] => rfl
      | [_] => rfl
      | _ :: _ :: _ => rfl
  · rfl

theorem searchGroup_of_unpaired (hk : kind.takesParameters = true)
    (h : kind.bracketed? call = none) : searchGroup kind group call
      = (none, [Report.error "Expected pair of 'self' and 'args' as argument"]) := by
  rw [searchGroup_eq hk, h]

theorem searchGroup_of_single (hk : kind.takesParameters = true) {m : Macro}
    (h : bestFits kind group call = [m]) : searchGroup kind group call = (some m, []) := by
  obtain ⟨arg, harg⟩ := bracketed?_of_bestFits (h ▸ List.mem_singleton_self m)
  rw [bestFits_of_bracketed? harg] at h
  simp only [searchGroup_eq hk, harg, chooseOverload, h]

theorem searchGroup_of_none (hk : kind.takesParameters = true) (hne : group ≠ [])
    (hpaired : kind.bracketed? call ≠ none) (h : bestFits kind group call = []) :
    searchGroup kind group call
      = (none, [Report.error (usageList "Wrong usage, expected:" group)]) := by
  obtain ⟨arg, harg⟩ := Option.ne_none_iff_exists'.mp hpaired
  rw [bestFits_of_bracketed? harg] at h
  have hsome : group.isEmpty = false := by simpa using hne
  simp only [searchGroup_eq hk, harg, chooseOverload, h, hsome, Bool.false_eq_true, if_false]

theorem searchGroup_of_several (hk : kind.takesParameters = true) {s : Signature}
    (hs : ∀ m ∈ group, m.signature = s) (h : 2 ≤ (bestFits kind group call).length) :
    searchGroup kind group call = (none, [Report.error
      (usageList s!"Ambiguous usage of macro {s.text}:" (bestFits kind group call))]) := by
  match hb : bestFits kind group call, h with
  | m :: n :: rest, _ =>
    have hm : m ∈ bestFits kind group call := hb ▸ List.mem_cons_self
    obtain ⟨arg, harg⟩ := bracketed?_of_bestFits hm
    rw [← hs m (mem_bestFits_iff.mp hm).1]
    rw [bestFits_of_bracketed? harg] at hb
    simp only [searchGroup_eq hk, harg, chooseOverload, hb]

theorem usageList_ne_undefined {header : String} (hne : header ≠ "")
    (hhead : header.toList.head? ≠ some 'N') (ms : List Macro) :
    usageList header ms ≠ "No macro defined, this shouldn't happen" := by
  intro h
  have hfirst := congrArg (fun text : String => text.toList.head?) h
  simp [usageList, hne, hhead] at hfirst

/-- A search in a group that is not empty ends with the only best overload, or with one error that
has overloads to list. -/
theorem searchGroup_cases (hk : kind.takesParameters = true) (hne : group ≠ []) {s : Signature}
    (hs : ∀ m ∈ group, m.signature = s) (call : Node) :
    (∃ m, bestFits kind group call = [m] ∧ searchGroup kind group call = (some m, []))
      ∨ (∀ m, bestFits kind group call ≠ [m]) ∧ ∃ message : String,
        searchGroup kind group call = (none, [Report.error message])
          ∧ message ≠ "No macro defined, this shouldn't happen" := by
  match hb : bestFits kind group call with
  | [m] => exact .inl ⟨m, rfl, searchGroup_of_single hk hb⟩
  | [] =>
    refine .inr ⟨by simp, ?_⟩
    by_cases hpaired : kind.bracketed? call = none
    · exact ⟨_, searchGroup_of_unpaired hk hpaired, by decide⟩
    · exact ⟨_, searchGroup_of_none hk hne hpaired hb,
        usageList_ne_undefined (by simp) (by simp) group⟩
  | m :: n :: rest =>
    exact .inr ⟨by simp, _, searchGroup_of_several hk hs (by simp [hb]),
      usageList_ne_undefined (by simp [toString]) (by simp [toString]) _⟩

theorem searchGroup_fst_iff (hk : kind.takesParameters = true) (hne : group ≠ []) {s : Signature}
    (hs : ∀ m ∈ group, m.signature = s) {m : Macro} :
    (searchGroup kind group call).1 = some m ↔ bestFits kind group call = [m] := by
  rcases searchGroup_cases hk hne hs call with
    ⟨n, hbest, hfound⟩ | ⟨hbest, message, hfound, -⟩
  · simp [hbest, hfound]
  · simp [hbest, hfound]

theorem searchGroup_perm (hk : kind.takesParameters = true) (hne : group ≠ []) {s : Signature}
    (hs : ∀ m ∈ group, m.signature = s) {other : List Macro} (h : other.Perm group) :
    (searchGroup kind other call).1 = (searchGroup kind group call).1 := by
  have hother : other ≠ [] := fun hnil => hne (List.nil_perm.mp (hnil ▸ h))
  refine Option.ext fun m => ?_
  rw [searchGroup_fst_iff hk hother fun n hn => hs n (h.mem_iff.mp hn),
    searchGroup_fst_iff hk hne hs]
  have hbest : (bestFits kind other call).Perm (bestFits kind group call) := bestFits_perm h
  constructor
  · intro hm
    exact List.perm_singleton.mp (hm ▸ hbest.symm)
  · intro hm
    exact List.perm_singleton.mp (hm ▸ hbest)

end

/-! ## Searches in a registry -/

/-- In a group of overloads that definitions and undefinitions lead to, a search finds a macro,
without a word, just if that is the only one of the least score. Otherwise it finds none and gives
one error: that a function's call is no pair, all overloads if none matches, or else those of the
least score, in the order of their definition. Another order of the group comes to the same. -/
theorem search_least (cs : List Change) (s : Signature) (hs : s.kind.takesParameters = true)
    (hdefined : (after cs).contains s = true) (call : Node) :
    let group := (after cs).group s
    let best := bestFits s.kind group call
    let found := searchGroup s.kind group call
    group = (kept cs).filter (fun m => m.signature == s)
      ∧ (∀ m, found = (some m, []) ↔ best = [m])
      ∧ ((∀ m, best ≠ [m]) → ∃ message : String, found = (none, [Report.error message])
        ∧ message ≠ "No macro defined, this shouldn't happen")
      ∧ (s.kind.bracketed? call = none →
        found = (none, [Report.error "Expected pair of 'self' and 'args' as argument"]))
      ∧ (s.kind.bracketed? call ≠ none → (∀ m ∈ group, m.fit s.kind call = none) →
        found = (none, [Report.error (usageList "Wrong usage, expected:" group)]))
      ∧ (2 ≤ best.length →
        found = (none, [Report.error (usageList s!"Ambiguous usage of macro {s.text}:" best)]))
      ∧ (best = [] ↔ ∀ m ∈ group, m.fit s.kind call = none)
      ∧ ∀ other, other.Perm group → (searchGroup s.kind other call).1 = found.1 := by
  intro group best found
  have hne : group ≠ [] := by
    obtain ⟨m, hm, hsig⟩ := List.any_eq_true.mp hdefined
    exact List.ne_nil_of_mem (List.mem_filter.mpr ⟨hm, hsig⟩)
  have hsignature : ∀ m ∈ group, m.signature = s :=
    fun m hm => beq_iff_eq.mp (List.mem_filter.mp hm).2
  have hcases := searchGroup_cases hs hne hsignature call
  refine ⟨group_after cs s, fun m => ⟨fun hfound => ?_, searchGroup_of_single hs⟩, fun hnot => ?_,
    searchGroup_of_unpaired hs, fun hpaired hnone => ?_, searchGroup_of_several hs hsignature,
    bestFits_eq_nil_iff, fun other => searchGroup_perm hs hne hsignature⟩
  · exact (searchGroup_fst_iff hs hne hsignature).mp (congrArg Prod.fst hfound)
  · rcases hcases with ⟨m, hbest, -⟩ | ⟨-, hmessage⟩
    · exact absurd hbest (hnot m)
    · exact hmessage
  · exact searchGroup_of_none hs hne hpaired (bestFits_eq_nil_iff.mpr hnone)

/-- Two overloads of which a call with two elements uses all of both. -/
theorem search_least_tied :
    let two := Macro.template ⟨⟨"f", .list⟩, [⟨"a", none⟩, ⟨"b", none⟩], none⟩ (.value "2") []
    let one := Macro.template ⟨⟨"f", .list⟩, [⟨"a", none⟩, ⟨"b", some (.value "d")⟩], none⟩
      (.value "1") []
    let call := Node.list "f" false [.value "x", .value "y"] {}
    let s : Signature := ⟨"f", .list⟩
    let group := (after [.add two, .add one]).group s
    (searchGroup .list group call
        = (none, [Report.error
          "Ambiguous usage of macro f[]:\n  f[a, b]\n  f[a, b = /* default */]"]))
      ∧ ∀ other, other.Perm group → (searchGroup .list other call).1 = none := by
  intro two one call s group
  have hdefined : (after [.add two, .add one]).contains s = true := by decide +kernel
  have hleast := search_least [.add two, .add one] s rfl hdefined call
  have hfound := hleast.2.2.2.2.2.1 (by decide +kernel)
  have htext : usageList s!"Ambiguous usage of macro {s.text}:"
      (bestFits .list group call)
      = "Ambiguous usage of macro f[]:\n  f[a, b]\n  f[a, b = /* default */]" := by decide +kernel
  rw [htext] at hfound
  refine ⟨hfound, fun other hother => ?_⟩
  rw [hleast.2.2.2.2.2.2.2 other hother]
  exact congrArg Prod.fst hfound

end ConfigScript
