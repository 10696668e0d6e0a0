import ConfigScript.Macro.Builder
import ConfigScript.Macro.Overload
import ConfigScript.Proofs.Node.Keyed
import Mathlib.Data.Finset.Card

/-! # How macros fit calls

The score of a positional macro is a matter of how many elements there are, that of an object macro
of which keys there are. From that follows when two macros have the same score on every call, and
when there is a call on which they tie. -/

namespace ConfigScript

/-- What the brackets of a call hold. Function kinds have it behind `self`. -/
def MacroKind.bracketed? (kind : MacroKind) (call : Node) : Option Node :=
  if kind.isFunction then call.items?.bind fun items => items[1]? else some call

/-- How well a macro fits a call of its kind; lower is better. -/
def Macro.fit (kind : MacroKind) (call : Node) (m : Macro) : Option Nat :=
  (kind.bracketed? call).bind fun arg => m.score arg

/-- A macro that passes the checks of its creation. -/
def Macro.Valid (m : Macro) : Prop :=
  checkParams m.params = .ok () ∧ Macro.checkHead m.head = .ok ()

/-! ## Kinds -/

theorem MacroKind.takesParameters_iff {kind : MacroKind} :
    kind.takesParameters = true ↔ kind ≠ .constant ∧ kind ≠ .access := by
  cases kind <;> decide

theorem isKeyed_of_isPositional {kind : MacroKind} (h : kind.isPositional = true) :
    kind.isKeyed = false := by
  cases kind <;> simp_all [MacroKind.isPositional, MacroKind.isKeyed]

theorem isPositional_of_not_isKeyed {kind : MacroKind} (ht : kind.takesParameters = true)
    (hk : ¬kind.isKeyed = true) : kind.isPositional = true := by
  simpa [MacroKind.takesParameters, hk] using ht

/-! ## Parameters -/

def declaredNames (ps : List Param) : Finset String := (ps.map Param.name).toFinset

def requiredNames (ps : List Param) : Finset String :=
  ((requiredParams ps).map Param.name).toFinset

theorem requiredNames_subset (ps : List Param) : requiredNames ps ⊆ declaredNames ps := by
  intro name h
  simp only [requiredNames, requiredParams, List.mem_toFinset, List.mem_map,
    List.mem_filter] at h
  obtain ⟨p, hp, rfl⟩ := h
  exact List.mem_toFinset.mpr (List.mem_map_of_mem hp.1)

theorem requiredCount_le_length (ps : List Param) : requiredCount ps ≤ ps.length :=
  List.length_filter_le _ _

theorem nodup_of_checkParams {ps : List Param} (h : checkParams ps = .ok ()) :
    (ps.map Param.name).Nodup := by
  rw [List.Nodup, List.pairwise_map, List.pairwise_iff_getElem]
  intro i j hi hj hij heq
  unfold checkParams at h
  split at h
  · rename_i hfind
    have hnot := List.find?_eq_none.mp hfind (ps[j], j)
      (List.mem_zipIdx_iff_getElem?.mpr (List.getElem?_eq_getElem hj))
    refine hnot (List.any_eq_true.mpr ⟨ps[i], ?_, beq_iff_eq.mpr heq⟩)
    exact List.mem_take_iff_getElem.mpr ⟨i, by omega, rfl⟩
  · simp at h

theorem Macro.Valid.nodup {m : Macro} (h : m.Valid) : (m.params.map Param.name).Nodup :=
  nodup_of_checkParams h.1

/-! ## Scores by number -/

section

variable {ps qs : List Param}

theorem positionalScore_eq_some_iff {count n : Nat} :
    positionalScore ps count = some n ↔ requiredCount ps ≤ count ∧ count - ps.length = n := by
  simp [positionalScore]

theorem positionalScore_agree_iff :
    (∀ count, positionalScore ps count = positionalScore qs count)
      ↔ ps.length = qs.length ∧ requiredCount ps = requiredCount qs := by
  constructor
  · intro h
    have hle {ps qs : List Param}
        (h : ∀ count, positionalScore ps count = positionalScore qs count) :
        requiredCount qs ≤ requiredCount ps := by
      have hself := positionalScore_eq_some_iff.mpr ⟨le_refl (requiredCount ps), rfl⟩
      rw [h] at hself
      exact (positionalScore_eq_some_iff.mp hself).1
    have hp := requiredCount_le_length ps
    have hq := requiredCount_le_length qs
    -- Far beyond both, the surplus tells the numbers of parameters apart.
    have hfar := h (ps.length + qs.length)
    rw [positionalScore, positionalScore, if_pos (by omega), if_pos (by omega)] at hfar
    have := Option.some.inj hfar
    exact ⟨by omega, le_antisymm (hle fun count => (h count).symm) (hle h)⟩
  · rintro ⟨hlength, hrequired⟩ count
    rw [positionalScore, positionalScore, hlength, hrequired]

theorem positionalScore_tie_iff :
    (∃ count n, positionalScore ps count = some n ∧ positionalScore qs count = some n)
      ↔ requiredCount ps ≤ qs.length ∧ requiredCount qs ≤ ps.length := by
  have hp := requiredCount_le_length ps
  have hq := requiredCount_le_length qs
  simp only [positionalScore_eq_some_iff]
  constructor
  · rintro ⟨count, n, ⟨hpc, hpn⟩, hqc, hqn⟩
    -- Either both take all elements, or both leave as many and take as many.
    omega
  · rintro ⟨hpq, hqp⟩
    exact ⟨max (requiredCount ps) (requiredCount qs), 0, by omega⟩

end

/-! ## Scores by keys -/

/-- The score of an object with these keys: how many of them name no parameter. -/
def scoreOfKeys (ps : List Param) (keys : Finset String) : Option Nat :=
  if requiredNames ps ⊆ keys then some (keys \ declaredNames ps).card else none

def keySet (args : List (String × Node)) : Finset String := (Properties.keys args).toFinset

section

variable {ps qs : List Param} {args : List (String × Node)}

theorem contains_iff_mem_keySet {key : String} :
    Properties.contains key args = true ↔ key ∈ keySet args := by
  rw [Properties.contains_iff, keySet, List.mem_toFinset]

theorem all_required_iff :
    ((requiredParams ps).all fun p => Properties.contains p.name args) = true
      ↔ requiredNames ps ⊆ keySet args := by
  simp only [List.all_eq_true, contains_iff_mem_keySet, requiredNames, Finset.subset_iff,
    List.mem_toFinset, List.mem_map, forall_exists_index, and_imp, forall_apply_eq_imp_iff₂]

/-- With the required parameters there, the supplied ones are those and the optional ones that have
an argument. -/
theorem length_supplied
    (h : ((requiredParams ps).all fun p => Properties.contains p.name args) = true) :
    requiredCount ps + (ps.filter fun p => p.isOptional && Properties.contains p.name args).length
      = (ps.filter fun p => Properties.contains p.name args).length := by
  induction ps with
  | nil => rfl
  | cons p ps ih =>
    cases hp : p.isOptional with
    | true =>
      have hrest := ih (by simpa [requiredParams, hp] using h)
      have hsame : requiredCount (p :: ps) = requiredCount ps := by
        simp [requiredCount, requiredParams, hp]
      rw [hsame]
      cases hc : Properties.contains p.name args with
      | true =>
        simp only [List.filter_cons, hp, hc, Bool.and_self, if_true, List.length_cons]
        omega
      | false => simpa [hc] using hrest
    | false =>
      have hboth : Properties.contains p.name args = true
          ∧ ((requiredParams ps).all fun p => Properties.contains p.name args) = true := by
        simpa [requiredParams, hp] using h
      have hrest := ih hboth.2
      have hmore : requiredCount (p :: ps) = requiredCount ps + 1 := by
        simp [requiredCount, requiredParams, hp]
      rw [hmore]
      simp only [List.filter_cons, hp, hboth.1, Bool.false_and, Bool.false_eq_true, if_false,
        if_true, List.length_cons]
      omega

theorem keyedScore_eq_scoreOfKeys (hps : (ps.map Param.name).Nodup)
    (hargs : (Properties.keys args).Nodup) :
    keyedScore ps args = scoreOfKeys ps (keySet args) := by
  unfold keyedScore scoreOfKeys
  by_cases h : requiredNames ps ⊆ keySet args
  · have hall := all_required_iff.mpr h
    have hcount : args.length = (keySet args).card := by
      rw [keySet, List.toFinset_card_of_nodup hargs, Properties.keys, List.length_map]
    have hsupplied : declaredNames ps ∩ keySet args
        = ((ps.filter fun p => Properties.contains p.name args).map Param.name).toFinset := by
      ext name
      simp only [declaredNames, Finset.mem_inter, List.mem_toFinset, List.mem_map,
        List.mem_filter, contains_iff_mem_keySet]
      constructor
      · rintro ⟨⟨p, hp, rfl⟩, hkey⟩
        exact ⟨p, ⟨hp, hkey⟩, rfl⟩
      · rintro ⟨p, ⟨hp, hkey⟩, rfl⟩
        exact ⟨⟨p, hp, rfl⟩, hkey⟩
    have hnodup : ((ps.filter fun p => Properties.contains p.name args).map Param.name).Nodup :=
      hps.sublist (List.filter_sublist.map _)
    simp only [if_pos hall, if_pos h, length_supplied hall, Finset.card_sdiff, hsupplied,
      List.toFinset_card_of_nodup hnodup, List.length_map, hcount]
  · have hall := mt all_required_iff.mp h
    rw [if_neg hall, if_neg h]

theorem scoreOfKeys_eq_some_iff {keys : Finset String} {n : Nat} :
    scoreOfKeys ps keys = some n
      ↔ requiredNames ps ⊆ keys ∧ (keys \ declaredNames ps).card = n := by
  simp [scoreOfKeys]

/-- Scores by keys agree just where the same names are declared and the same required. -/
theorem scoreOfKeys_agree_iff :
    (∀ keys, scoreOfKeys ps keys = scoreOfKeys qs keys)
      ↔ declaredNames ps = declaredNames qs ∧ requiredNames ps = requiredNames qs := by
  constructor
  · intro h
    have hsub {ps qs : List Param} (h : ∀ keys, scoreOfKeys ps keys = scoreOfKeys qs keys) :
        declaredNames ps ⊆ declaredNames qs ∧ requiredNames qs ⊆ requiredNames ps := by
      constructor
      · -- The declared names themselves leave nothing unused.
        have hself := scoreOfKeys_eq_some_iff.mpr
          ⟨requiredNames_subset ps, congrArg Finset.card (Finset.sdiff_self (declaredNames ps))⟩
        rw [h, Finset.card_empty] at hself
        have hnone := (scoreOfKeys_eq_some_iff.mp hself).2
        exact Finset.sdiff_eq_empty_iff_subset.mp (Finset.card_eq_zero.mp hnone)
      · have hself := scoreOfKeys_eq_some_iff.mpr ⟨Finset.Subset.refl (requiredNames ps), rfl⟩
        rw [h] at hself
        exact (scoreOfKeys_eq_some_iff.mp hself).1
    have hpq := hsub h
    have hqp := hsub fun keys => (h keys).symm
    exact ⟨hpq.1.antisymm hqp.1, hqp.2.antisymm hpq.2⟩
  · rintro ⟨hdeclared, hrequired⟩ keys
    rw [scoreOfKeys, scoreOfKeys, hdeclared, hrequired]

theorem card_sdiff_eq_add (keys known other : Finset String) :
    (keys \ known).card = (keys ∩ (other \ known)).card + (keys \ (other ∪ known)).card := by
  have hdisjoint : Disjoint (keys ∩ (other \ known)) (keys \ (other ∪ known)) := by
    refine Finset.disjoint_left.mpr fun key h h' => ?_
    simp only [Finset.mem_inter, Finset.mem_sdiff, Finset.mem_union] at h h'
    exact h'.2 (.inl h.2.1)
  rw [← Finset.card_union_of_disjoint hdisjoint]
  congr 1
  ext key
  simp only [Finset.mem_union, Finset.mem_inter, Finset.mem_sdiff]
  tauto

theorem union_sdiff_eq {required known other own others : Finset String}
    (hrequired : required ⊆ known)
    (hown : own ⊆ known) (hother : other \ known ⊆ others) (hothers : Disjoint others known) :
    ((required ∪ other) ∪ (own ∪ others)) \ known = others := by
  ext key
  have hout (h : key ∈ others) : key ∉ known := Finset.disjoint_left.mp hothers h
  have hin (h : key ∈ other) (h' : key ∉ known) : key ∈ others :=
    hother (Finset.mem_sdiff.mpr ⟨h, h'⟩)
  have hrequired' := @hrequired key
  have hown' := @hown key
  simp only [Finset.mem_sdiff, Finset.mem_union]
  tauto

/-- Object macros tie on some keys just where what each requires and the other does not know can be
made up for by what the other knows alone. -/
theorem scoreOfKeys_tie_iff :
    (∃ keys n, scoreOfKeys ps keys = some n ∧ scoreOfKeys qs keys = some n)
      ↔ (requiredNames ps \ declaredNames qs).card ≤ (declaredNames qs \ declaredNames ps).card
        ∧ (requiredNames qs \ declaredNames ps).card
          ≤ (declaredNames ps \ declaredNames qs).card := by
  simp only [scoreOfKeys_eq_some_iff]
  constructor
  · rintro ⟨keys, n, ⟨hp, hpn⟩, hq, hqn⟩
    -- Keys that neither declares count for both, so the others have to balance.
    have hps := card_sdiff_eq_add keys (declaredNames ps) (declaredNames qs)
    have hqs := card_sdiff_eq_add keys (declaredNames qs) (declaredNames ps)
    rw [Finset.union_comm (declaredNames ps)] at hqs
    have hsub (ps qs : List Param) (h : requiredNames ps ⊆ keys) :
        (requiredNames ps \ declaredNames qs).card
          ≤ (keys ∩ (declaredNames ps \ declaredNames qs)).card :=
      Finset.card_le_card (Finset.subset_inter (Finset.sdiff_subset.trans h)
        (Finset.sdiff_subset_sdiff (requiredNames_subset ps) (Finset.Subset.refl _)))
    have hle (other : Finset String) : (keys ∩ other).card ≤ other.card :=
      Finset.card_le_card Finset.inter_subset_right
    have hp' := hsub ps qs hp
    have hq' := hsub qs ps hq
    have hple := hle (declaredNames ps \ declaredNames qs)
    have hqle := hle (declaredNames qs \ declaredNames ps)
    omega
  · rintro ⟨hpq, hqp⟩
    have hsub (ps qs : List Param) :
        requiredNames ps \ declaredNames qs ⊆ declaredNames ps \ declaredNames qs :=
      Finset.sdiff_subset_sdiff (requiredNames_subset ps) (Finset.Subset.refl _)
    -- As many names known to the one alone as to the other, with all that either requires.
    obtain ⟨U, hU, hUle, hUcard⟩ := Finset.exists_subsuperset_card_eq (hsub ps qs)
      (le_max_left _ (requiredNames qs \ declaredNames ps).card)
      (max_le (Finset.card_le_card (hsub ps qs)) hqp)
    obtain ⟨V, hV, hVle, hVcard⟩ := Finset.exists_subsuperset_card_eq (hsub qs ps)
      (le_max_right (requiredNames ps \ declaredNames qs).card _)
      (max_le hpq (Finset.card_le_card (hsub qs ps)))
    have hleft := union_sdiff_eq (requiredNames_subset ps) (hUle.trans Finset.sdiff_subset) hV
      (Finset.disjoint_of_subset_left hVle Finset.sdiff_disjoint)
    have hright := union_sdiff_eq (requiredNames_subset qs) (hVle.trans Finset.sdiff_subset) hU
      (Finset.disjoint_of_subset_left hUle Finset.sdiff_disjoint)
    rw [Finset.union_comm (requiredNames qs), Finset.union_comm V] at hright
    refine ⟨(requiredNames ps ∪ requiredNames qs) ∪ (U ∪ V), U.card, ⟨?_, ?_⟩, ?_, ?_⟩
    · exact Finset.subset_union_left.trans Finset.subset_union_left
    · rw [hleft, hUcard, hVcard]
    · exact Finset.subset_union_right.trans Finset.subset_union_left
    · rw [hright]

end

/-! ## Calls -/

theorem bracketed?_keyed {kind : MacroKind} {call arg : Node} (h : call.Keyed)
    (harg : kind.bracketed? call = some arg) : arg.Keyed := by
  unfold MacroKind.bracketed? at harg
  split at harg
  · obtain ⟨items, hitems, hget⟩ := Option.bind_eq_some_iff.mp harg
    cases call with
    | primitive text i => simp [Node.items?] at hitems
    | object name props i => simp [Node.items?] at hitems
    | list name op items' i =>
      rw [Node.Keyed, Node.keyedItems_iff] at h
      rw [← Option.some.inj hitems] at hget
      exact h arg (List.mem_of_getElem? hget)
  · exact Option.some.inj harg ▸ h

theorem exists_bracketed? (kind : MacroKind) {arg : Node} (h : arg.Keyed) :
    ∃ call, call.Keyed ∧ kind.bracketed? call = some arg := by
  unfold MacroKind.bracketed?
  split
  · exact ⟨.list "" false [arg, arg] {}, ⟨h, h, trivial⟩, rfl⟩
  · exact ⟨arg, h, rfl⟩

section

variable {kind : MacroKind} {a b : Macro}

theorem fit_eq_score {call arg : Node} (h : kind.bracketed? call = some arg) (m : Macro) :
    m.fit kind call = m.score arg := by
  rw [Macro.fit, h, Option.bind_some]

theorem fit_agree_iff_score_agree :
    (∀ call : Node, call.Keyed → a.fit kind call = b.fit kind call)
      ↔ ∀ arg : Node, arg.Keyed → a.score arg = b.score arg := by
  constructor
  · intro h arg harg
    obtain ⟨call, hcall, hbracketed⟩ := exists_bracketed? kind harg
    rw [← fit_eq_score hbracketed, ← fit_eq_score hbracketed, h call hcall]
  · intro h call hcall
    cases hbracketed : kind.bracketed? call with
    | none => rw [Macro.fit, Macro.fit, hbracketed, Option.bind_none, Option.bind_none]
    | some arg =>
      rw [fit_eq_score hbracketed, fit_eq_score hbracketed,
        h arg (bracketed?_keyed hcall hbracketed)]

theorem fit_tie_iff_score_tie :
    (∃ (call : Node) (n : Nat), call.Keyed ∧ a.fit kind call = some n ∧ b.fit kind call = some n)
      ↔ ∃ (arg : Node) (n : Nat), arg.Keyed ∧ a.score arg = some n ∧ b.score arg = some n := by
  constructor
  · rintro ⟨call, n, hcall, ha, hb⟩
    obtain ⟨arg, hbracketed, -⟩ := Option.bind_eq_some_iff.mp ha
    rw [fit_eq_score hbracketed] at ha hb
    exact ⟨arg, n, bracketed?_keyed hcall hbracketed, ha, hb⟩
  · rintro ⟨arg, n, harg, ha, hb⟩
    obtain ⟨call, hcall, hbracketed⟩ := exists_bracketed? kind harg
    rw [← fit_eq_score hbracketed] at ha hb
    exact ⟨call, n, hcall, ha, hb⟩

theorem score_of_positional {m : Macro} (h : m.kind.isKeyed = false) (arg : Node) :
    m.score arg = arg.items?.bind fun items => positionalScore m.params items.length := by
  rw [Macro.score, h, if_neg Bool.false_ne_true]

theorem positionalScore_tie_of_fit (ha : a.kind.isKeyed = false) (hb : b.kind.isKeyed = false)
    {call : Node} {n : Nat} (hna : a.fit kind call = some n) (hnb : b.fit kind call = some n) :
    ∃ count, positionalScore a.params count = some n ∧ positionalScore b.params count = some n := by
  obtain ⟨arg, hbracketed, -⟩ := Option.bind_eq_some_iff.mp hna
  rw [fit_eq_score hbracketed, score_of_positional ha] at hna
  rw [fit_eq_score hbracketed, score_of_positional hb] at hnb
  obtain ⟨items, hitems, hna⟩ := Option.bind_eq_some_iff.mp hna
  rw [hitems, Option.bind_some] at hnb
  exact ⟨items.length, hna, hnb⟩

theorem score_of_keyed {m : Macro} (h : m.kind.isKeyed = true) (hm : m.Valid) {arg : Node}
    (harg : arg.Keyed) :
    m.score arg = arg.properties?.bind fun args => scoreOfKeys m.params (keySet args) := by
  rw [Macro.score, if_pos h]
  cases arg with
  | primitive text i => rfl
  | list name op items i => rfl
  | object name props i =>
    rw [Node.Keyed] at harg
    exact keyedScore_eq_scoreOfKeys hm.nodup harg.1

/-- An object with given keys. -/
def objectOf (keys : List String) : Node := .object "" (keys.map fun key => (key, .value "")) {}

theorem objectOf_keyed {keys : List String} (h : keys.Nodup) : (objectOf keys).Keyed := by
  rw [objectOf, Node.Keyed]
  refine ⟨by simpa [Properties.keys, Function.comp_def] using h, ?_⟩
  clear h
  induction keys with
  | nil => trivial
  | cons key keys ih => exact ⟨trivial, ih⟩

theorem score_objectOf {m : Macro} (h : m.kind.isKeyed = true) (hm : m.Valid)
    (keys : Finset String) : m.score (objectOf keys.toList) = scoreOfKeys m.params keys := by
  rw [score_of_keyed h hm (objectOf_keyed keys.nodup_toList)]
  simp [objectOf, Node.properties?, keySet, Properties.keys, Function.comp_def]

theorem fit_agree_iff_of_positional (ha : a.kind.isKeyed = false) (hb : b.kind.isKeyed = false) :
    (∀ call : Node, call.Keyed → a.fit kind call = b.fit kind call)
      ↔ a.params.length = b.params.length ∧ requiredCount a.params = requiredCount b.params := by
  rw [fit_agree_iff_score_agree, ← positionalScore_agree_iff]
  simp only [score_of_positional ha, score_of_positional hb]
  constructor
  · intro h count
    have hkeyed : (Node.list "" false (List.replicate count (.value "")) {}).Keyed :=
      Node.keyedItems_iff.mpr fun x hx => List.eq_of_mem_replicate hx ▸ trivial
    simpa [Node.items?] using h _ hkeyed
  · intro h arg _
    simp only [h]

theorem fit_agree_iff_of_keyed (ha : a.kind.isKeyed = true) (hb : b.kind.isKeyed = true)
    (hva : a.Valid) (hvb : b.Valid) :
    (∀ call : Node, call.Keyed → a.fit kind call = b.fit kind call)
      ↔ declaredNames a.params = declaredNames b.params
        ∧ requiredNames a.params = requiredNames b.params := by
  rw [fit_agree_iff_score_agree, ← scoreOfKeys_agree_iff]
  constructor
  · intro h keys
    rw [← score_objectOf ha hva, ← score_objectOf hb hvb,
      h _ (objectOf_keyed keys.nodup_toList)]
  · intro h arg harg
    rw [score_of_keyed ha hva harg, score_of_keyed hb hvb harg]
    simp only [h]

theorem fit_tie_iff_of_keyed (ha : a.kind.isKeyed = true) (hb : b.kind.isKeyed = true)
    (hva : a.Valid) (hvb : b.Valid) :
    (∃ (call : Node) (n : Nat), call.Keyed ∧ a.fit kind call = some n ∧ b.fit kind call = some n)
      ↔ (requiredNames a.params \ declaredNames b.params).card
          ≤ (declaredNames b.params \ declaredNames a.params).card
        ∧ (requiredNames b.params \ declaredNames a.params).card
          ≤ (declaredNames a.params \ declaredNames b.params).card := by
  rw [fit_tie_iff_score_tie, ← scoreOfKeys_tie_iff]
  constructor
  · rintro ⟨arg, n, harg, hna, hnb⟩
    rw [score_of_keyed ha hva harg] at hna
    rw [score_of_keyed hb hvb harg] at hnb
    obtain ⟨args, hargs, hna⟩ := Option.bind_eq_some_iff.mp hna
    rw [hargs, Option.bind_some] at hnb
    exact ⟨keySet args, n, hna, hnb⟩
  · rintro ⟨keys, n, hna, hnb⟩
    refine ⟨objectOf keys.toList, n, objectOf_keyed keys.nodup_toList, ?_, ?_⟩
    · rw [score_objectOf ha hva, hna]
    · rw [score_objectOf hb hvb, hnb]

end

end ConfigScript
