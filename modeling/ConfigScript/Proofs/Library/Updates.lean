import Mathlib.Data.List.Nodup
import ConfigScript.Library.Collection
import ConfigScript.Proofs.Node.Frame

/-! # Collections as functions from their indices

An updated copy of a list or object differs from it at the index or key of the update and nowhere
else, and keeps the order of what it keeps. Merging puts behind the properties of one object those
that the other one has more. -/

namespace ConfigScript

/-! ## Maps of properties -/

namespace Properties

variable {key other : String} {v : Node} {ps qs rs : List (String × Node)}

theorem get?_put (key other : String) (v : Node) (ps : List (String × Node)) :
    get? other (put key v ps) = if other = key then some v else get? other ps := by
  induction ps with
  | nil =>
    rw [put, get?_cons]
    simp only [eq_comm]
  | cons p ps ih =>
    obtain ⟨k, w⟩ := p
    rw [put]
    by_cases hk : k = key
    · subst hk
      rw [if_pos rfl, get?_cons, get?_cons]
      by_cases ho : k = other
      · rw [if_pos ho, if_pos ho.symm]
      · rw [if_neg ho, if_neg (Ne.symm ho), if_neg ho]
    · rw [if_neg hk, get?_cons, get?_cons, ih]
      by_cases ho : k = other
      · rw [if_pos ho, if_pos ho, if_neg fun he => hk (ho.trans he)]
      · rw [if_neg ho, if_neg ho]

theorem keys_put (key : String) (v : Node) (ps : List (String × Node)) :
    keys (put key v ps) = keys ps ++ if key ∈ keys ps then [] else [key] := by
  induction ps with
  | nil => rfl
  | cons p ps ih =>
    obtain ⟨k, w⟩ := p
    rw [put]
    by_cases hk : k = key
    · rw [if_pos hk, if_pos (hk ▸ List.mem_cons_self), List.append_nil]
      rfl
    · rw [if_neg hk]
      have hmem : key ∈ keys ((k, w) :: ps) ↔ key ∈ keys ps := by
        simp [keys, Ne.symm hk]
      simp only [hmem]
      exact congrArg (k :: ·) ih

theorem keys_erase (key : String) (ps : List (String × Node)) :
    keys (erase key ps) = (keys ps).filter (· != key) := by
  rw [erase, keys, keys, List.filter_map]
  rfl

theorem get?_filter_keys (f : String → Bool) (key : String) (ps : List (String × Node)) :
    get? key (ps.filter fun p => f p.1) = if f key then get? key ps else none := by
  induction ps with
  | nil => simp [get?]
  | cons p ps ih =>
    obtain ⟨k, w⟩ := p
    rw [List.filter_cons, get?_cons]
    by_cases hf : f k = true
    · rw [if_pos hf, get?_cons, ih]
      by_cases hk : k = key
      · rw [if_pos hk, if_pos hk, if_pos (hk ▸ hf)]
      · rw [if_neg hk, if_neg hk]
    · rw [if_neg hf, ih]
      by_cases hk : k = key
      · rw [if_neg (hk ▸ hf), if_neg (hk ▸ hf)]
      · rw [if_neg hk]

theorem get?_eq_none (h : key ∉ keys ps) : get? key ps = none :=
  List.lookup_eq_none_iff.mpr fun p hp => bne_iff_ne.mpr fun he =>
    h (List.mem_map.mpr ⟨p, hp, he.symm⟩)

theorem exists_get? (h : key ∈ keys ps) : ∃ v, get? key ps = some v := by
  obtain ⟨p, hp, rfl⟩ := List.mem_map.mp h
  exact Option.isSome_iff_exists.mp (List.lookup_isSome_iff.mpr ⟨p, hp, beq_self_eq_true p.1⟩)

end Properties

namespace Library.Collection

open Properties

variable {ps qs rs : List (String × Node)}

/-! ## Merged properties -/

/-- The properties whose keys another object does not have. -/
def without (ps qs : List (String × Node)) : List (String × Node) :=
  qs.filter fun q => q.1 ∉ keys ps

theorem mergeProperties_known {q : String × Node} (h : q.1 ∈ keys ps) :
    mergeProperties ps (q :: qs) = mergeProperties ps qs := by
  rw [mergeProperties, List.foldl_cons, if_pos (contains_iff.mpr h)]
  rfl

theorem mergeProperties_new {q : String × Node} (h : q.1 ∉ keys ps) :
    mergeProperties ps (q :: qs) = mergeProperties (ps ++ [q]) qs := by
  rw [mergeProperties, List.foldl_cons, if_neg fun hc => h (contains_iff.mp hc), put_append h]
  rfl

theorem mergeProperties_eq (h : (keys qs).Nodup) : mergeProperties ps qs = ps ++ without ps qs := by
  induction qs generalizing ps with
  | nil => exact (List.append_nil ps).symm
  | cons q qs ih =>
    obtain ⟨hq, hqs⟩ := List.nodup_cons.mp h
    by_cases hmem : q.1 ∈ keys ps
    · rw [mergeProperties_known hmem, ih hqs, without, without, List.filter_cons_of_neg (by simpa)]
    · have hrest : without (ps ++ [q]) qs = without ps qs := by
        refine List.filter_congr fun r hr => ?_
        have hne : r.1 ≠ q.1 := fun he => hq (List.mem_map.mpr ⟨r, hr, he⟩)
        have hmem : r.1 ∈ keys (ps ++ [q]) ↔ r.1 ∈ keys ps := by simp [keys, hne]
        simp only [hmem]
      rw [mergeProperties_new hmem, ih hqs, hrest, List.append_assoc, without, without,
        List.filter_cons_of_pos (by simpa)]
      rfl

theorem keys_without (ps qs : List (String × Node)) :
    keys (without ps qs) = (keys qs).filter (· ∉ keys ps) := by
  rw [without, keys.eq_1 qs, List.filter_map]
  rfl

theorem keys_mergeProperties (h : (keys qs).Nodup) :
    keys (mergeProperties ps qs) = keys ps ++ (keys qs).filter (· ∉ keys ps) := by
  rw [mergeProperties_eq h, ← keys_without]
  exact List.map_append

theorem get?_mergeProperties (h : (keys qs).Nodup) (key : String) :
    get? key (mergeProperties ps qs) = if key ∈ keys ps then get? key ps else get? key qs := by
  have hsplit : get? key (ps ++ without ps qs) = (get? key ps).or (get? key (without ps qs)) :=
    List.lookup_append
  rw [mergeProperties_eq h, hsplit]
  by_cases hk : key ∈ keys ps
  · obtain ⟨v, hv⟩ := exists_get? hk
    rw [if_pos hk, hv, Option.some_or]
  · have hfilter := get?_filter_keys (fun k => k ∉ keys ps) key qs
    rw [if_pos (by simpa)] at hfilter
    rw [if_neg hk, get?_eq_none hk, Option.none_or, without, hfilter]

theorem nodup_mergeProperties (hp : (keys ps).Nodup) (hq : (keys qs).Nodup) :
    (keys (mergeProperties ps qs)).Nodup := by
  rw [keys_mergeProperties hq]
  refine hp.append (hq.filter _) fun k hk hmem => ?_
  exact of_decide_eq_true (List.mem_filter.mp hmem).2 hk

theorem mergeProperties_assoc (hq : (keys qs).Nodup) (hr : (keys rs).Nodup) :
    mergeProperties (mergeProperties ps qs) rs = mergeProperties ps (mergeProperties qs rs) := by
  have hkeys (key : String) :
      key ∈ keys (mergeProperties ps qs) ↔ key ∈ keys ps ∨ key ∈ keys qs := by
    rw [keys_mergeProperties hq, List.mem_append, List.mem_filter, decide_eq_true_iff]
    tauto
  have hrest : without (mergeProperties ps qs) rs = without ps (without qs rs) := by
    rw [without, without, without, List.filter_filter]
    refine List.filter_congr fun r _ => ?_
    rw [Bool.eq_iff_iff, Bool.and_eq_true, decide_eq_true_iff, decide_eq_true_iff,
      decide_eq_true_iff, hkeys, not_or]
  calc mergeProperties (mergeProperties ps qs) rs
      = mergeProperties ps qs ++ without ps (without qs rs) := by rw [mergeProperties_eq hr, hrest]
    _ = ps ++ (without ps qs ++ without ps (without qs rs)) := by
      rw [mergeProperties_eq hq, List.append_assoc]
    _ = ps ++ without ps (qs ++ without qs rs) := by
      rw [without, without, without, without, List.filter_append]
    _ = mergeProperties ps (mergeProperties qs rs) := by
      rw [mergeProperties_eq (nodup_mergeProperties hq hr), mergeProperties_eq hr]

theorem mergeProperties_of_subset (h : ∀ key ∈ keys qs, key ∈ keys ps) :
    mergeProperties ps qs = ps := by
  induction qs with
  | nil => rfl
  | cons q qs ih =>
    rw [mergeProperties_known (h q.1 List.mem_cons_self)]
    exact ih fun key hkey => h key (List.mem_cons_of_mem _ hkey)

/-! ## Indices -/

section

variable {s : String} {i : Int} {items : List Node} {place : NodeInfo}

/-- What is said about an index that denotes no element of a list. -/
def indexReport (s : String) (place : NodeInfo) (size : Nat) : Report :=
  match Number.readInt64? s with
  | none => Report.errorAt "Expected int" place.position
  | some i => Report.error s!"Index out of range ({i}, size = {size})"

/-- An index that denotes an element of a list of the given size. -/
structure Within (s : String) (i : Int) (size : Nat) : Prop where
  read : Number.readInt64? s = some i
  nonneg : 0 ≤ i
  lt : i < size

theorem Within.toNat_lt {size : Nat} (h : Within s i size) : i.toNat < size := by
  have hnonneg := h.nonneg
  have hlt := h.lt
  omega

theorem indexReport_isError (s : String) (place : NodeInfo) (size : Nat) :
    (indexReport s place size).isError = true := by
  unfold indexReport
  split <;> rfl

theorem withElement_of_within (h : Within s i items.length) (place : NodeInfo)
    (f : Nat → Expansion) : withElement (.primitive s place) items f = f i.toNat := by
  have hrange : inRange? i items = some i.toNat := by
    rw [inRange?, if_pos (by simpa using ⟨h.nonneg, h.lt⟩)]
  simp only [withElement, indexArgument, Node.expectPrimitive, h.read, hrange]

theorem withElement_of_not_within (h : ∀ i, ¬Within s i items.length) (place : NodeInfo)
    (f : Nat → Expansion) :
    withElement (.primitive s place) items f
      = ⟨.refused, [indexReport s place items.length]⟩ := by
  rw [withElement, indexArgument, indexReport]
  simp only [Node.expectPrimitive]
  cases hr : Number.readInt64? s with
  | none => rfl
  | some i =>
    have hrange : inRange? i items = none := by
      rw [inRange?, if_neg]
      intro hc
      simp only [Bool.and_eq_true, decide_eq_true_eq] at hc
      exact h i ⟨hr, hc.1, hc.2⟩
    simp only [hrange, outOfRange]

end

/-! ## Lists -/

/-- The laws of updates of a list. An index stands for the element with the number that its text
denotes, and one that denotes none is refused with one error. -/
structure ListUpdates (name : String) (op : Bool) (items : List Node) (info : NodeInfo) : Prop where
  updated : ∀ s place i value, Within s i items.length → ∃ items',
    set (.list name op items info) (.primitive s place) value
      = .produced (.list name op items' info)
    ∧ items'.length = items.length
    ∧ ∀ t place', get (.list name op items' info) (.primitive t place')
      = if Number.readInt64? t = some i then .produced value
        else get (.list name op items info) (.primitive t place')
  removed : ∀ s place i, Within s i items.length → ∃ before x after,
    items = before ++ x :: after ∧ before.length = i.toNat
    ∧ get (.list name op items info) (.primitive s place) = .produced x
    ∧ remove (.list name op items info) (.primitive s place)
      = .produced (.list name op (before ++ after) info)
  refused : ∀ s place, (∀ i, ¬Within s i items.length) →
    let refusal : Expansion := ⟨.refused, [indexReport s place items.length]⟩
    (indexReport s place items.length).isError = true
    ∧ get (.list name op items info) (.primitive s place) = refusal
    ∧ (∀ value, set (.list name op items info) (.primitive s place) value = refusal)
    ∧ remove (.list name op items info) (.primitive s place) = refusal

variable (name : String) (op : Bool) (items : List Node) (info : NodeInfo)

theorem get_list (index : Node) : get (.list name op items info) index
    = withElement index items fun k =>
      match items[k]? with
      | some v => .produced v
      | none => ⟨.refused, []⟩ := rfl

theorem get_list_set {s : String} {i : Int} (h : Within s i items.length) (value : Node)
    (t : String) (place : NodeInfo) :
    get (.list name op (items.set i.toNat value) info) (.primitive t place)
      = if Number.readInt64? t = some i then .produced value
        else get (.list name op items info) (.primitive t place) := by
  rw [get_list, get_list]
  have hlength : (items.set i.toNat value).length = items.length := List.length_set
  by_cases ht : ∃ j, Within t j items.length
  · obtain ⟨j, hj⟩ := ht
    rw [withElement_of_within (hlength ▸ hj), withElement_of_within hj, hj.read]
    by_cases hij : j = i
    · subst hij
      rw [if_pos rfl, List.getElem?_set_self h.toNat_lt]
    · have hne : i.toNat ≠ j.toNat := by
        have hi := h.nonneg
        have hj := hj.nonneg
        omega
      rw [if_neg (by simpa using hij), List.getElem?_set_ne hne]
  · have hnone : ∀ j, ¬Within t j items.length := fun j hj => ht ⟨j, hj⟩
    have hread : Number.readInt64? t ≠ some i := fun hr => hnone i ⟨hr, h.nonneg, h.lt⟩
    rw [withElement_of_not_within (hlength ▸ hnone), withElement_of_not_within hnone, hlength,
      if_neg hread]

theorem listUpdates : ListUpdates name op items info where
  updated s place i value h := by
    refine ⟨items.set i.toNat value, ?_, List.length_set, get_list_set name op items info h value⟩
    exact withElement_of_within h place _
  removed s place i h := by
    have hlt : i.toNat < items.length := h.toNat_lt
    refine ⟨items.take i.toNat, items[i.toNat], items.drop (i.toNat + 1), ?_,
      List.length_take_of_le (Nat.le_of_lt hlt), ?_, ?_⟩
    · rw [List.getElem_cons_drop, List.take_append_drop]
    · rw [get_list, withElement_of_within h, List.getElem?_eq_getElem hlt]
    · rw [← List.eraseIdx_eq_take_drop_succ]
      exact withElement_of_within h place _
  refused s place h :=
    ⟨indexReport_isError s place items.length, withElement_of_not_within h place _,
      fun _ => withElement_of_not_within h place _, withElement_of_not_within h place _⟩

/-! ## Objects -/

/-- A list of texts, as `keys` gives it. -/
def texts (ss : List String) : Node := listOf (ss.map Node.value)

/-- The laws of updates of an object. -/
structure ObjectUpdates (name : String) (props : List (String × Node)) (info : NodeInfo) :
    Prop where
  listed : keysOf (.object name props info) = .produced (texts (Properties.keys props))
  updated : ∀ key place value, ∃ props',
    set (.object name props info) (.primitive key place) value
      = .produced (.object name props' info)
    ∧ (∀ k place', get (.object name props' info) (.primitive k place')
      = if k = key then .produced value
        else get (.object name props info) (.primitive k place'))
    ∧ keysOf (.object name props' info)
      = .produced (texts
        (Properties.keys props ++ if key ∈ Properties.keys props then [] else [key]))
  removed : ∀ key place, ∃ props',
    remove (.object name props info) (.primitive key place) = .produced (.object name props' info)
    ∧ (∀ k place', k ≠ key → get (.object name props' info) (.primitive k place')
      = get (.object name props info) (.primitive k place'))
    ∧ keysOf (.object name props' info)
      = .produced (texts ((Properties.keys props).filter (· != key)))

variable (props : List (String × Node))

theorem keysOf_object :
    keysOf (.object name props info) = .produced (texts (Properties.keys props)) := by
  rw [texts, Properties.keys, List.map_map]
  rfl

theorem get_object (key : String) (place : NodeInfo) :
    get (.object name props info) (.primitive key place)
      = match Properties.get? key props with
        | some v => .produced v
        | none => ⟨.refused, [Report.error s!"No property '{key}' in object"]⟩ := rfl

theorem get_object_congr {key : String} (h : Properties.get? key ps = Properties.get? key qs)
    (name' : String) (info' : NodeInfo) (place : NodeInfo) :
    get (.object name ps info) (.primitive key place)
      = get (.object name' qs info') (.primitive key place) := by
  rw [get_object, get_object, h]

theorem objectUpdates : ObjectUpdates name props info where
  listed := keysOf_object name info props
  updated key place value := by
    refine ⟨Properties.put key value props, rfl, fun k place' => ?_, ?_⟩
    · by_cases hk : k = key
      · rw [if_pos hk, get_object, Properties.get?_put, if_pos hk]
      · rw [if_neg hk]
        exact get_object_congr name info (by rw [Properties.get?_put, if_neg hk]) name info place'
    · rw [keysOf_object, Properties.keys_put]
  removed key place := by
    refine ⟨Properties.erase key props, rfl, fun k place' hk => ?_, ?_⟩
    · refine get_object_congr name info ?_ name info place'
      rw [Properties.erase, Properties.get?_filter_keys (· != key), if_pos (bne_iff_ne.mpr hk)]
    · rw [keysOf_object, Properties.keys_erase]

/-! ## Merged objects -/

/-- The laws of merging an object with another one. -/
structure Merging (name : String) (ps : List (String × Node)) (info : NodeInfo) (name' : String)
    (qs : List (String × Node)) (info' : NodeInfo) : Prop where
  merged : ∃ props,
    merge (.object name ps info) (.object name' qs info') = .produced (.object name props info)
    ∧ keysOf (.object name props info)
      = .produced (texts (Properties.keys ps
          ++ (Properties.keys qs).filter (· ∉ Properties.keys ps)))
    ∧ ∀ key place, get (.object name props info) (.primitive key place)
      = if key ∈ Properties.keys ps then get (.object name ps info) (.primitive key place)
        else get (.object name' qs info') (.primitive key place)
  associative : ∀ name'' rs info'', (Properties.keys rs).Nodup →
    ((merge (.object name ps info) (.object name' qs info')).andThen
        fun n => merge n (.object name'' rs info''))
      = (merge (.object name' qs info') (.object name'' rs info'')).andThen
        fun n => merge (.object name ps info) n
  idempotent : merge (.object name ps info) (.object name ps info)
    = .produced (.object name ps info)

variable (name' : String) (info' : NodeInfo)

theorem merge_object (ps qs : List (String × Node)) :
    merge (.object name ps info) (.object name' qs info')
      = .produced (.object name (mergeProperties ps qs) info) := rfl

theorem merging (hq : (keys qs).Nodup) : Merging name ps info name' qs info' where
  merged := by
    refine ⟨mergeProperties ps qs, rfl, ?_, fun key place => ?_⟩
    · rw [keysOf_object, keys_mergeProperties hq]
    · have hget : get? key (mergeProperties ps qs)
          = if key ∈ keys ps then get? key ps else get? key qs := get?_mergeProperties hq key
      by_cases hk : key ∈ keys ps
      · rw [if_pos hk] at hget ⊢
        exact get_object_congr name info hget name info place
      · rw [if_neg hk] at hget ⊢
        exact get_object_congr name info hget name' info' place
  associative name'' rs info'' hr := by
    change merge (.object name (mergeProperties ps qs) info) (.object name'' rs info'')
      = merge (.object name ps info) (.object name' (mergeProperties qs rs) info')
    rw [merge_object, merge_object, mergeProperties_assoc hq hr]
  idempotent := by
    rw [merge_object, mergeProperties_of_subset fun _ => id]

/-- Updates of collections are updates of functions: from the integers in range for a list, and from
keys in their order for an object, whose keys are distinct as those of a map. -/
theorem updates_functional :
    (∀ name op items info, ListUpdates name op items info)
    ∧ (∀ name props info, ObjectUpdates name props info)
    ∧ ∀ name ps info name' qs info', (keys ps).Nodup → (keys qs).Nodup →
      Merging name ps info name' qs info' :=
  ⟨listUpdates, fun name props info => objectUpdates name info props,
    fun name _ info name' _ info' _ hq => merging name info name' info' hq⟩

theorem updates_functional_signed :
    let first := Node.value "a"
    let second := Node.value "b"
    let items := [first, second]
    Within "+1" 1 items.length
      ∧ (∃ items', set (.list "l" true items {}) (.value "+1") first
          = .produced (.list "l" true items' {})
        ∧ items'.length = 2
        ∧ get (.list "l" true items' {}) (.value "01") = .produced first
        ∧ get (.list "l" true items' {}) (.value "0") = .produced first)
      ∧ (∃ before x after, items = before ++ x :: after ∧ before.length = 1
        ∧ get (.list "l" true items {}) (.value "+1") = .produced x
        ∧ remove (.list "l" true items {}) (.value "+1")
          = .produced (.list "l" true (before ++ after) {}))
      ∧ get (.list "l" true items {}) (.value "2")
        = ⟨.refused, [Report.error "Index out of range (2, size = 2)"]⟩
      ∧ (keys [("k", first)]).Nodup ∧ (keys [("k", second), ("n", second)]).Nodup
      ∧ ∃ props, merge (.object "" [("k", first)] {}) (.object "" [("k", second), ("n", second)] {})
          = .produced (.object "" props {})
        ∧ keysOf (.object "" props {}) = .produced (texts ["k", "n"])
        ∧ get (.object "" props {}) (.value "k") = .produced first := by
  intro first second items
  have hread : Number.readInt64? "+1" = some 1 := by decide +kernel
  have hsame : Number.readInt64? "01" = some 1 := by decide +kernel
  have hzero : Number.readInt64? "0" = some 0 := by decide +kernel
  have htwo : Number.readInt64? "2" = some 2 := by decide +kernel
  have hwithin : Within "+1" 1 items.length := ⟨hread, by decide, by decide⟩
  have hbeyond : ∀ i, ¬Within "2" i items.length := by
    intro i hi
    obtain rfl := Option.some.inj (htwo.symm.trans hi.read)
    exact absurd hi.lt (by decide)
  have hnodup : (keys [("k", first)]).Nodup := by decide
  have hnodup' : (keys [("k", second), ("n", second)]).Nodup := by decide
  obtain ⟨hlist, -, hmerging⟩ := updates_functional
  obtain ⟨hupdated, hremoved, hrefused⟩ := hlist "l" true items {}
  refine ⟨hwithin, ?_, hremoved "+1" {} 1 hwithin, ?_, hnodup, hnodup', ?_⟩
  · obtain ⟨items', hset, hlength, hget⟩ := hupdated "+1" {} 1 first hwithin
    have hother := hget "0" {}
    have hsecond := hget "01" {}
    rw [if_pos hsame] at hsecond
    rw [hzero, if_neg (by decide)] at hother
    refine ⟨items', hset, hlength, hsecond, hother.trans ?_⟩
    have hfirst : Within "0" 0 items.length := ⟨hzero, by decide, by decide⟩
    rw [get_list]
    exact withElement_of_within hfirst {} _
  · have hreport : indexReport "2" {} 2 = Report.error "Index out of range (2, size = 2)" := by
      decide +kernel
    rw [← hreport]
    exact (hrefused "2" {} hbeyond).2.1
  · obtain ⟨props, hmerge, hkeys, hget⟩ := (hmerging "" _ {} "" _ {} hnodup hnodup').merged
    exact ⟨props, hmerge, hkeys, (hget "k" {}).trans rfl⟩

end Library.Collection

end ConfigScript
