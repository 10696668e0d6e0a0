import ConfigScript.Proofs.Macro.Fit
import ConfigScript.Proofs.Macro.Trusted

/-! # Selection and binding agree

An overload is selected by a count of what it leaves unused, and its arguments are bound by looking
each parameter up. A macro that fits a call binds it, without an error; one that does not fit binds
nothing. -/

namespace ConfigScript

/-- `self` of a call of a function kind. -/
def MacroKind.self? (kind : MacroKind) (call : Node) : Option Node :=
  if kind.isFunction then call.items?.bind List.head? else none

/-- The property or the element in brackets that a parameter takes, if it is there. -/
def MacroKind.supplied? (kind : MacroKind) (arg : Node) (i : Nat) (p : Param) : Option Node :=
  if kind.isKeyed then arg.properties?.bind (Properties.get? p.name)
  else arg.items?.bind fun items => items[i]?

/-- Whether a report warns of a property that no parameter takes. -/
def Report.isUnusedArgument (r : Report) : Bool :=
  r.isWarning && "Unused argument".toList.isPrefixOf r.message.toList

/-! ## Properties -/

section

variable {α β : Type}

theorem get?_isSome (key : String) (args : List (String × α)) :
    (Properties.get? key args).isSome = Properties.contains key args := by
  induction args with
  | nil => rfl
  | cons a args ih =>
    rw [Properties.get?, List.lookup_cons, Properties.contains, List.any_cons]
    rw [Properties.get?, Properties.contains] at ih
    rw [Bool.beq_comm (a := a.1)]
    cases key == a.1 with
    | true => rfl
    | false => rw [Bool.false_or, ← ih]

theorem filterMap_eq_iff_of_isSome {f : α → Option β} {xs : List α} {ys : List β}
    (h : ∀ x ∈ xs, (f x).isSome = true) : xs.filterMap f = ys ↔ ys.map some = xs.map f := by
  induction xs generalizing ys with
  | nil => cases ys <;> simp
  | cons x xs ih =>
    obtain ⟨y, hy⟩ := Option.isSome_iff_exists.mp (h x List.mem_cons_self)
    rw [List.filterMap_cons_some hy, List.map_cons, hy]
    cases ys with
    | nil => simp
    | cons z zs =>
      rw [List.cons_eq_cons, ih fun z hz => h z (List.mem_cons_of_mem x hz), List.map_cons,
        List.cons_eq_cons, Option.some_inj, eq_comm (a := z)]

theorem map_some_ne_of_eq_none {f : α → Option β} {xs : List α} {x : α} (hx : x ∈ xs)
    (hf : f x = none) (ys : List β) : ys.map some ≠ xs.map f := by
  intro heq
  have hmem : f x ∈ ys.map some := heq ▸ List.mem_map_of_mem hx
  rw [hf] at hmem
  simp at hmem

end

section

variable {ps : List Param} {args : List (String × Node)}

/-- What a parameter of an object macro is bound to. -/
def Param.boundTo (args : List (String × Node)) (p : Param) : Option Node :=
  (Properties.get? p.name args).or p.default

theorem boundTo_isSome (p : Param) :
    (p.boundTo args).isSome = (Properties.contains p.name args || p.isOptional) := by
  rw [Param.boundTo, Option.isSome_or, get?_isSome, Param.isOptional]

theorem bindProperties_eq_some_iff {bound : List Node} :
    (bindProperties ps args).1 = some bound ↔ bound.map some = ps.map (Param.boundTo args) := by
  have hmissing : ((ps.map fun p => (p, p.boundTo args)).filter fun b => b.2.isNone).isEmpty = true
      ↔ ∀ p ∈ ps, (p.boundTo args).isSome = true := by
    simp [List.filter_eq_nil_iff, Option.isSome_iff_ne_none]
  have hvalues : (ps.map fun p => (p, p.boundTo args)).filterMap Prod.snd
      = ps.filterMap (Param.boundTo args) := by
    rw [List.filterMap_map]
    rfl
  change (if ((ps.map fun p => (p, p.boundTo args)).filter fun b => b.2.isNone).isEmpty = true
    then some ((ps.map fun p => (p, p.boundTo args)).filterMap Prod.snd) else none) = some bound ↔ _
  simp only [hmissing, hvalues]
  split
  · rename_i hall
    rw [Option.some_inj, filterMap_eq_iff_of_isSome hall]
  · rename_i hall
    push Not at hall
    obtain ⟨p, hp, hnone⟩ := hall
    have hne := map_some_ne_of_eq_none hp (Option.not_isSome_iff_eq_none.mp hnone) bound
    exact iff_of_false (by simp) hne

/-- The keys of an object that name no parameter. -/
def unusedKeys (ps : List Param) (args : List (String × Node)) : List String :=
  (Properties.keys args).filter fun key => !ps.any fun p => p.name == key

def unusedArgument (key : String) : Report := Report.warning s!"Unused argument '{key}'"

theorem bindProperties_reports {bound : List Node} (h : (bindProperties ps args).1 = some bound) :
    (bindProperties ps args).2 = (unusedKeys ps args).map unusedArgument := by
  unfold bindProperties at h ⊢
  simp only at h ⊢
  split at h
  · rename_i hmissing
    rw [List.isEmpty_iff.mp hmissing, unusedKeys, Properties.keys, List.filter_map, List.map_map]
    rfl
  · simp at h

theorem keyedScore_isSome :
    (keyedScore ps args).isSome
      = (requiredParams ps).all fun p => Properties.contains p.name args := by
  unfold keyedScore
  split
  · rename_i h
    rw [h]
    rfl
  · rename_i h
    rw [Bool.eq_false_iff.mpr h]
    rfl

theorem bindProperties_isSome :
    (bindProperties ps args).1.isSome = (keyedScore ps args).isSome := by
  rw [keyedScore_isSome, Bool.eq_iff_iff]
  have hall : ((requiredParams ps).all fun p => Properties.contains p.name args) = true
      ↔ ∀ p ∈ ps, (p.boundTo args).isSome = true := by
    simp only [requiredParams, List.all_eq_true, List.mem_filter, boundTo_isSome]
    refine forall_congr' fun p => ?_
    cases p.isOptional <;> simp
  rw [hall]
  constructor
  · intro h p hp
    obtain ⟨bound, hbound⟩ := Option.isSome_iff_exists.mp h
    by_contra hnone
    exact map_some_ne_of_eq_none hp (by simpa using hnone) bound
      (bindProperties_eq_some_iff.mp hbound)
  · intro h
    exact Option.isSome_iff_exists.mpr ⟨ps.filterMap (Param.boundTo args),
      bindProperties_eq_some_iff.mpr ((filterMap_eq_iff_of_isSome h).mp rfl)⟩

theorem keyedScore_eq_length (hps : (ps.map Param.name).Nodup)
    (hargs : (Properties.keys args).Nodup)
    (h : (keyedScore ps args).isSome = true) :
    keyedScore ps args = some (unusedKeys ps args).length := by
  have hunused : keySet args \ declaredNames ps = (unusedKeys ps args).toFinset := by
    ext key
    simp [keySet, declaredNames, unusedKeys]
  have hnodup : (unusedKeys ps args).Nodup := hargs.filter _
  rw [keyedScore_isSome, all_required_iff] at h
  rw [keyedScore_eq_scoreOfKeys hps hargs, scoreOfKeys, if_pos h, hunused,
    List.toFinset_card_of_nodup hnodup]

end

/-! ## Elements -/

section

variable {ps : List Param} {items : List Node}

theorem defaultsOf_eq_some_iff {values : List Node} :
    defaultsOf ps = some values ↔ values.map some = ps.map Param.default := by
  induction ps generalizing values with
  | nil => cases values <;> simp [defaultsOf]
  | cons p ps ih =>
    rw [defaultsOf, List.map_cons]
    cases hp : p.default with
    | none => cases values <;> simp
    | some v =>
      cases values with
      | nil => simp
      | cons w ws => simp [ih, and_comm, eq_comm (a := v)]

theorem take_append_defaults (ps : List Param) (items : List Node) :
    (items.take ps.length).map some ++ (ps.drop items.length).map Param.default
      = ps.mapIdx fun i p => items[i]?.or p.default := by
  induction ps generalizing items with
  | nil => simp
  | cons p ps ih =>
    cases items with
    | nil =>
      have hrest := ih []
      simp only [List.take_nil, List.map_nil, List.length_nil, List.drop_zero, List.nil_append,
        List.getElem?_nil, Option.none_or] at hrest ⊢
      rw [List.map_cons, List.mapIdx_cons, hrest]
    | cons x items => simp [List.mapIdx_cons, ← ih]

theorem bindItems_eq_some {bound : List Node} (h : (bindItems ps items).1 = some bound) :
    bound.map some = ps.mapIdx fun i p => items[i]?.or p.default := by
  unfold bindItems at h
  split at h
  · simp at h
  · simp only [Option.map_eq_some_iff] at h
    obtain ⟨values, hvalues, rfl⟩ := h
    rw [List.map_append, defaultsOf_eq_some_iff.mp hvalues, take_append_defaults]

theorem bindItems_quiet {bound : List Node} (h : (bindItems ps items).1 = some bound) :
    hasError (bindItems ps items).2 = false := by
  unfold bindItems at h ⊢
  split at h
  · simp at h
  · rename_i hlt
    rw [if_neg hlt]
    simp only
    split <;> rfl

theorem bindItems_isSome (ho : optionalLast ps = true) :
    (bindItems ps items).1.isSome = (positionalScore ps items.length).isSome := by
  unfold bindItems positionalScore
  by_cases hlt : items.length < requiredCount ps
  · rw [if_pos hlt, if_neg (Nat.not_le_of_lt hlt)]
    rfl
  · have hle := Nat.le_of_not_lt hlt
    rw [if_neg hlt, if_pos hle]
    simp only [Option.isSome_map]
    exact defaultsOf_drop ho hle

end

/-! ## Brackets -/

section

variable {h : MacroHead} {arg : Node} {bound : List Node}

theorem bindBracketed_cases (hb : (bindBracketed h arg).1 = some bound) :
    (∃ props, h.signature.kind.isKeyed = true ∧ arg.properties? = some props
        ∧ bindBracketed h arg = bindProperties h.params props)
      ∨ ∃ items, h.signature.kind.isKeyed = false ∧ arg.items? = some items
        ∧ bindBracketed h arg = bindItems h.params items := by
  unfold bindBracketed at hb ⊢
  cases hk : h.signature.kind.isKeyed with
  | true =>
    cases hprops : arg.properties? with
    | some props => exact .inl ⟨props, rfl, rfl, rfl⟩
    | none => simp [hk, hprops] at hb
  | false =>
    cases hitems : arg.items? with
    | some items => exact .inr ⟨items, rfl, rfl, rfl⟩
    | none => simp [hk, hitems] at hb

theorem bindBracketed_quiet (hb : (bindBracketed h arg).1 = some bound) :
    hasError (bindBracketed h arg).2 = false := by
  rcases bindBracketed_cases hb with ⟨props, -, -, heq⟩ | ⟨items, -, -, heq⟩
  · rw [heq] at hb ⊢
    rw [bindProperties_reports hb, hasError, List.any_map]
    exact List.any_eq_false.mpr fun key _ => Bool.false_ne_true
  · rw [heq] at hb ⊢
    exact bindItems_quiet hb

theorem bindBracketed_eq_some (hb : (bindBracketed h arg).1 = some bound) :
    bound.map some
      = h.params.mapIdx fun i p => (h.signature.kind.supplied? arg i p).or p.default := by
  rcases bindBracketed_cases hb with ⟨props, hk, hprops, heq⟩ | ⟨items, hk, hitems, heq⟩
  · rw [heq, bindProperties_eq_some_iff] at hb
    rw [hb]
    simp only [MacroKind.supplied?, hk, hprops, if_true, Option.bind_some]
    exact List.ext_getElem? fun i => by rw [List.getElem?_map, List.getElem?_mapIdx]; rfl
  · rw [heq] at hb
    rw [bindItems_eq_some hb]
    simp only [MacroKind.supplied?, hk, hitems, Bool.false_eq_true, if_false, Option.bind_some]

theorem bindBracketed_isSome {m : Macro} (hm : Macro.checkHead m.head = .ok ())
    (ht : m.kind.takesParameters = true) (arg : Node) :
    (bindBracketed m.head arg).1.isSome = (m.score arg).isSome := by
  unfold bindBracketed Macro.score
  by_cases hk : m.kind.isKeyed = true
  · have hk' : m.head.signature.kind.isKeyed = true := hk
    rw [if_pos hk, if_pos hk']
    cases arg.properties? with
    | some props => exact bindProperties_isSome
    | none => rfl
  · have hk' : ¬m.head.signature.kind.isKeyed = true := hk
    rw [if_neg hk, if_neg hk']
    cases arg.items? with
    | some items =>
      exact bindItems_isSome (checkHead_optionalLast hm (isPositional_of_not_isKeyed ht hk))
    | none => rfl

end

/-! ## Calls -/

section

variable {h : MacroHead} {call arg : Node}

theorem exists_items_of_bracketed? {kind : MacroKind} (hf : kind.isFunction = true)
    (harg : kind.bracketed? call = some arg) :
    ∃ self rest, call.items? = some (self :: arg :: rest) := by
  rw [MacroKind.bracketed?, if_pos hf] at harg
  obtain ⟨items, hitems, hget⟩ := Option.bind_eq_some_iff.mp harg
  match items, hget with
  | self :: _ :: rest, hget => exact ⟨self, rest, Option.some.inj hget ▸ hitems⟩

/-- A warning about elements behind the brackets of a function's call. -/
def behindBrackets (kind : MacroKind) (call : Node) : List Report :=
  if kind.isFunction then surplusWarning 2 (call.items?.getD []) else []

theorem behindBrackets_quiet (kind : MacroKind) (call : Node) :
    hasError (behindBrackets kind call) = false
      ∧ (behindBrackets kind call).countP Report.isUnusedArgument = 0 := by
  unfold behindBrackets surplusWarning
  split
  · split
    · exact ⟨rfl, by simp [Report.isUnusedArgument, Report.warning, Report.warningAt, toString]⟩
    · exact ⟨rfl, rfl⟩
  · exact ⟨rfl, rfl⟩

theorem self?_of_function {kind : MacroKind} (hf : kind.isFunction = true) {self : Node}
    {rest : List Node} (hitems : call.items? = some (self :: rest)) :
    kind.self? call = some self := by
  rw [MacroKind.self?, if_pos hf, hitems]
  rfl

/-- Binding is that of the brackets, with `self` in front for the function kinds. -/
theorem bind_of_bracketed (ht : h.signature.kind.takesParameters = true)
    (harg : h.signature.kind.bracketed? call = some arg) :
    h.bind call = ((bindBracketed h arg).1.map ((h.signature.kind.self? call).toList ++ ·),
      behindBrackets h.signature.kind call ++ (bindBracketed h arg).2) := by
  obtain ⟨hconstant, haccess⟩ := MacroKind.takesParameters_iff.mp ht
  unfold MacroHead.bind
  split
  · exact absurd ‹_› hconstant
  · exact absurd ‹_› haccess
  · by_cases hf : h.signature.kind.isFunction = true
    · obtain ⟨self, rest, hitems⟩ := exists_items_of_bracketed? hf harg
      rw [behindBrackets, if_pos hf, if_pos hf, self?_of_function hf hitems, hitems]
      rfl
    · have hsame : call = arg := by simpa [MacroKind.bracketed?, hf] using harg
      simp [MacroKind.self?, behindBrackets, hf, hsame]

theorem bind_of_unbracketed (ht : h.signature.kind.takesParameters = true)
    (harg : h.signature.kind.bracketed? call = none) : (h.bind call).1 = none := by
  obtain ⟨hconstant, haccess⟩ := MacroKind.takesParameters_iff.mp ht
  unfold MacroHead.bind
  split
  · exact absurd ‹_› hconstant
  · exact absurd ‹_› haccess
  · rw [MacroKind.bracketed?] at harg
    split at harg
    · rename_i hf
      rw [if_pos hf]
      split
      · rename_i hitems
        simp [hitems] at harg
      · rfl
    · simp at harg

theorem bind_quiet {args : List Node} (hb : (h.bind call).1 = some args) :
    hasError (h.bind call).2 = false := by
  by_cases ht : h.signature.kind.takesParameters = true
  · cases harg : h.signature.kind.bracketed? call with
    | none => simp [bind_of_unbracketed ht harg] at hb
    | some arg =>
      rw [bind_of_bracketed ht harg] at hb ⊢
      obtain ⟨bound, hbound, -⟩ := Option.map_eq_some_iff.mp hb
      rw [hasError_append, (behindBrackets_quiet _ call).1, bindBracketed_quiet hbound,
        Bool.or_self]
  · unfold MacroHead.bind at hb ⊢
    split at hb
    · rfl
    · split at hb
      · simp only [surplusWarning]
        split <;> rfl
      · simp at hb
    · exact absurd (MacroKind.takesParameters_iff.mpr ⟨‹_›, ‹_›⟩) ht

end

section

variable {m : Macro} {call arg : Node}

theorem bind_isSome (hm : Macro.checkHead m.head = .ok ()) (ht : m.kind.takesParameters = true)
    (call : Node) : (m.head.bind call).1.isSome = (m.fit m.kind call).isSome := by
  cases harg : m.kind.bracketed? call with
  | none =>
    rw [bind_of_unbracketed ht harg, Macro.fit, harg]
    rfl
  | some arg =>
    rw [bind_of_bracketed ht harg, fit_eq_score harg, Option.isSome_map, bindBracketed_isSome hm ht]

theorem self?_length {kind : MacroKind} (harg : kind.bracketed? call = some arg) :
    (kind.self? call).toList.length = if kind.isFunction then 1 else 0 := by
  by_cases hf : kind.isFunction = true
  · obtain ⟨self, rest, hitems⟩ := exists_items_of_bracketed? hf harg
    rw [self?_of_function hf hitems, if_pos hf]
    rfl
  · rw [MacroKind.self?, if_neg hf, if_neg hf]
    rfl

theorem countP_unusedArgument (keys : List String) :
    (keys.map unusedArgument).countP Report.isUnusedArgument = keys.length := by
  rw [List.countP_map, List.countP_eq_length]
  intro key _
  simp [unusedArgument, Report.isUnusedArgument, Report.warning, Report.warningAt, toString,
    Report.isWarning]

/-- The score of a keyed macro that binds: the keys that name no parameter, each with a warning. -/
theorem fit_of_keyed (hm : m.Valid) (hcall : call.Keyed) (ht : m.kind.takesParameters = true)
    (hk : m.kind.isKeyed = true) (harg : m.kind.bracketed? call = some arg) {bound : List Node}
    (hb : (bindBracketed m.head arg).1 = some bound) :
    ∃ props, arg.properties? = some props
      ∧ m.fit m.kind call = some (unusedKeys m.params props).length
      ∧ m.fit m.kind call = some ((m.head.bind call).2.countP Report.isUnusedArgument) := by
  have hkeyed := bracketed?_keyed hcall harg
  rcases bindBracketed_cases hb with ⟨props, -, hprops, heq⟩ | ⟨-, hnot, -⟩
  · have hnodup : (Properties.keys props).Nodup := by
      cases arg with
      | object name props' info =>
        rw [Node.Keyed] at hkeyed
        exact Option.some.inj hprops ▸ hkeyed.1
      | primitive text info => simp [Node.properties?] at hprops
      | list name op items info => simp [Node.properties?] at hprops
    have hfit : m.fit m.kind call = keyedScore m.params props := by
      rw [fit_eq_score harg, Macro.score, if_pos hk, hprops, Option.bind_some]
    have hscore : m.fit m.kind call = some (unusedKeys m.params props).length := by
      rw [hfit]
      refine keyedScore_eq_length hm.nodup hnodup ?_
      rw [heq] at hb
      exact bindProperties_isSome ▸ Option.isSome_iff_exists.mpr ⟨bound, hb⟩
    refine ⟨props, hprops, hscore, ?_⟩
    rw [heq] at hb
    rw [hscore, bind_of_bracketed ht harg, List.countP_append,
      (behindBrackets_quiet _ call).2, heq, bindProperties_reports hb, countP_unusedArgument,
      Nat.zero_add]
    rfl
  · exact absurd (hnot.symm.trans hk) Bool.false_ne_true

theorem fit_of_positional (hk : m.kind.isPositional = true)
    (harg : m.kind.bracketed? call = some arg) (hfit : (m.fit m.kind call).isSome = true) :
    ∃ items, arg.items? = some items
      ∧ m.fit m.kind call = some (items.length - m.params.length) := by
  have hkeyed := isKeyed_of_isPositional hk
  rw [fit_eq_score harg, score_of_positional hkeyed] at hfit ⊢
  obtain ⟨n, hn⟩ := Option.isSome_iff_exists.mp hfit
  obtain ⟨items, hitems, hscore⟩ := Option.bind_eq_some_iff.mp hn
  exact ⟨items, hitems, by rw [hn, ← (positionalScore_eq_some_iff.mp hscore).2]⟩

/-- A macro with parameters fits a call just where the call binds, and no error is reported then:
`self` of the function kinds comes first, and each parameter in order has the element or the
property supplied for it, or else its default. The score of a keyed macro is the number of
properties that name no parameter, each of which is warned of; that of a positional macro is the
number of elements beyond its parameters. -/
theorem fits_iff_binds (hm : m.Valid) (ht : m.kind.takesParameters = true) (hcall : call.Keyed) :
    ((m.fit m.kind call).isSome = true ↔ (m.head.bind call).1.isSome = true)
      ∧ ∀ args, (m.head.bind call).1 = some args →
        hasError (m.head.bind call).2 = false
        ∧ args.length = (if m.kind.isFunction then 1 else 0) + m.params.length
        ∧ ∃ arg, m.kind.bracketed? call = some arg
          ∧ args.map some = (m.kind.self? call).toList.map some
            ++ m.params.mapIdx (fun i p => (m.kind.supplied? arg i p).or p.default)
          ∧ (m.kind.isKeyed = true → ∃ props, arg.properties? = some props
            ∧ m.fit m.kind call = some (unusedKeys m.params props).length
            ∧ m.fit m.kind call = some ((m.head.bind call).2.countP Report.isUnusedArgument))
          ∧ (m.kind.isPositional = true → ∃ items, arg.items? = some items
            ∧ m.fit m.kind call = some (items.length - m.params.length)) := by
  have hsame := bind_isSome hm.2 ht call
  refine ⟨by rw [hsame], fun args hargs => ⟨bind_quiet hargs, ?_⟩⟩
  have hfit : (m.fit m.kind call).isSome = true := by rw [← hsame, hargs]; rfl
  cases harg : m.kind.bracketed? call with
  | none => simp [Macro.fit, harg] at hfit
  | some arg =>
    have hbind := bind_of_bracketed (h := m.head) ht harg
    rw [hbind] at hargs
    obtain ⟨bound, hbound, rfl⟩ := Option.map_eq_some_iff.mp hargs
    have hvalues := bindBracketed_eq_some hbound
    refine ⟨?_, arg, rfl, ?_, fun hk => fit_of_keyed hm hcall ht hk harg hbound,
      fun hk => fit_of_positional hk harg hfit⟩
    · have hlength : bound.length = m.head.params.length := by
        simpa using congrArg List.length hvalues
      rw [List.length_append, hlength]
      exact congrArg (· + m.params.length) (self?_length harg)
    · rw [List.map_append, hvalues]
      rfl

/-- A function of an object that leaves one property out and has one too many. -/
theorem fits_iff_binds_defaulted :
    let m := Macro.template ⟨⟨"f", .objectFn⟩, [⟨"a", none⟩, ⟨"b", some (.value "d")⟩], none⟩
      (.value "") []
    let call := Node.list "" false
      [.value "s", .object "f" [("z", .value "2"), ("a", .value "1")] {}] {}
    m.fit .objectFn call = some 1
      ∧ (m.head.bind call).1 = some [.value "s", .value "1", .value "d"]
      ∧ hasError (m.head.bind call).2 = false
      ∧ (m.head.bind call).2.countP Report.isUnusedArgument = 1 := by
  intro m call
  have hm : m.Valid := ⟨rfl, rfl⟩
  have hcall : call.Keyed := by simp [call, Node.Keyed, Node.KeyedItems, Node.KeyedProperties,
    Properties.keys, Node.value]
  have hall := fits_iff_binds hm rfl hcall
  obtain ⟨hquiet, -, arg, harg, -, hkeyed, -⟩ := hall.2 _ rfl
  obtain ⟨props, hprops, hfit, hwarned⟩ := hkeyed rfl
  have hone : m.fit .objectFn call = some 1 := by decide +kernel
  exact ⟨hone, rfl, hquiet, Option.some.inj (hwarned.symm.trans hone)⟩

end

end ConfigScript
