import ConfigScript.Proofs.Macro.Frozen
import ConfigScript.Proofs.Parser.Requests
import ConfigScript.Proofs.Parser.Unresolved

/-! # Calls mean what they meant

When the body of a macro is read, each call in it is settled on an overload. However the macro is
applied later, the call that is left in the template when its turn comes would be settled on the
same overload, and that overload takes it. -/

namespace ConfigScript

/-- The heads of the macros are checked. -/
def MacroRegistry.Checked (r : MacroRegistry) : Prop :=
  ∀ m ∈ r.macros, Macro.checkHead m.head = .ok ()

/-- What stands in the place of a call has its outline, and so has what is in the brackets; it
means the same macro, which takes it. -/
structure StandsFor (macros : MacroRegistry) (kind : MacroKind) (callee : Macro)
    (chosen slot : Node) : Prop where
  outline : slot.outline = chosen.outline
  bracketed : (kind.bracketed? slot).map Node.outline = (kind.bracketed? chosen).map Node.outline
  found : searchGroup kind (macros.group ⟨Template.wordOf chosen, kind⟩) slot = (some callee, [])
  bound : ∃ args, (callee.head.bind slot).1 = some args
  quiet : hasError (callee.head.bind slot).2 = false

/-- Every call among the edits of a template was settled on its macro among those that were known,
and when the edits before it have run, whatever the arguments are, what stands in its place stands
for it. -/
def CallsSettled (macros : MacroRegistry) (body : Node) (edits : List Edit) : Prop :=
  ∀ before path callee after, edits = before ++ .call path callee :: after →
    ∃ kind chosen, body.get? path = some chosen
      ∧ searchGroup kind (macros.group ⟨Template.wordOf chosen, kind⟩) chosen = (some callee, [])
      ∧ ∀ args copy target, (applyEdits before args body copy).result = .produced target →
        ∃ slot, target.get? path = some slot ∧ StandsFor macros kind callee chosen slot

theorem wordOf_clearMarks (n : Node) : Template.wordOf n.clearMarks = Template.wordOf n := by
  cases n <;> rfl

theorem exists_recordedFor {macros : MacroRegistry} {pending : List (Nat × Edit)}
    {new : List (Nat × Node)} (h : List.Forall₂ (RecordedFor macros) pending new)
    {p : Nat × Edit} (hp : p ∈ pending) : ∃ q ∈ new, RecordedFor macros p q := by
  induction h with
  | nil => simp at hp
  | @cons _ q _ _ hpq _ ih =>
    rcases List.mem_cons.mp hp with rfl | hp
    · exact ⟨q, List.mem_cons_self, hpq⟩
    · obtain ⟨r, hr, hpr⟩ := ih hp
      exact ⟨r, List.mem_cons_of_mem _ hr, hpr⟩

theorem finish_edits {t : Template} {body : Node} (hm : body.marks.Nodup) {m : Macro}
    (h : (t.finish body).1 = some m) : ∃ head, Macro.checkHead head = .ok ()
      ∧ m = .template head body.clearMarks (editsOf t.pending body.postOrder) := by
  obtain ⟨head, edits, rfl, hc, -⟩ := Template.finish_spec (Prod.ext h rfl)
  refine ⟨head, hc, ?_⟩
  unfold Template.finish at h
  split at h
  · simp at h
  · simp only at h
    split at h
    · simp at h
    · split at h
      · obtain ⟨-, -, he⟩ := Macro.template.inj (Option.some.inj h)
        rw [← he, locate_eq_editsOf hm]
      · simp at h

namespace Parser

variable {s u : ParserState} {t : Template} {body n : Node} {path : Path} {callee : Macro}

/-- The node that carries a call in the finished body is the one that its macro was chosen for. -/
theorem ReadBody.chosen (h : ReadBody s u t body) (hn : (path, n) ∈ body.postOrder)
    (hat : editAt? t.pending (path, n) = some (.call path callee)) :
    ∃ kind, Chosen s.visible.macros kind callee n := by
  obtain ⟨new, hrecorded, hnumbered, hsub⟩ := h.recorded
  obtain ⟨e, he, hmove⟩ := Option.map_eq_some_iff.mp hat
  obtain ⟨path', rfl⟩ := Template.moveTo_eq_call hmove.symm
  obtain ⟨p, hp, hpe⟩ := Option.map_eq_some_iff.mp he
  obtain ⟨k, hk, hfind⟩ := Option.bind_eq_some_iff.mp hp
  have hpk : p.1 = k := by simpa using List.find?_some hfind
  obtain ⟨q, hq, hpq⟩ := exists_recordedFor hrecorded (List.mem_of_find?_eq_some hfind)
  have hmarked : (k, n) ∈ new := by
    refine hsub.subset (List.mem_filterMap.mpr ⟨(path, n), hn, ?_⟩)
    rw [Node.withMark?, show n.mark = some k from hk]
    rfl
  have hnodup : (new.map Prod.fst).Nodup := hnumbered ▸ List.nodup_range
  have hsame : q = (k, n) :=
    List.inj_on_of_nodup_map hnodup hq hmarked (hpq.1.symm.trans hpk)
  obtain ⟨kind, hchosen⟩ := hpq.2 path' callee hpe
  exact ⟨kind, by rwa [hsame] at hchosen⟩

/-- The edits before a call are neither at its place nor above it, nor at the place of what is in
its brackets. -/
theorem ReadBody.beside (h : ReadBody s u t body) {before : List Edit} {kind : MacroKind}
    (hn : (path, n) ∈ body.postOrder) (hf : Formed kind n)
    (hbefore : ∀ e ∈ before, ∃ q ∈ body.postOrder, Node.NotAbove q (path, n)
      ∧ editAt? t.pending q = some e) :
    (∀ e ∈ before, ¬e.path <+: path)
      ∧ (kind.isFunction = true → ∀ e ∈ before, ¬e.path <+: path ++ [.index 1]) := by
  refine ⟨fun e he => ?_, fun hk e he => ?_⟩
  · obtain ⟨q, -, hnot, hq⟩ := hbefore e he
    rw [(path_of_editAt? hq).1]
    exact hnot
  · obtain ⟨q, hmem, hnot, hq⟩ := hbefore e he
    obtain ⟨hpath, hmark⟩ := path_of_editAt? hq
    rw [hpath, List.prefix_concat_iff, not_or]
    refine ⟨fun heq => ?_, hnot⟩
    have hget : body.get? q.1 = some q.2 := Node.get?_of_mem_postOrder h.keyed hmem
    rw [heq, Node.get?_append_singleton, Node.get?_of_mem_postOrder h.keyed hn,
      Option.bind_some, ← bracketed?_of_isFunction hk] at hget
    simp [hf.args hk q.2 hget] at hmark

/-- The calls in a body that was read stay settled. -/
theorem ReadBody.callsSettled (h : ReadBody s u t body)
    (hv : ∀ m ∈ s.visible.macros.macros, Macro.checkHead m.head = .ok ()) :
    CallsSettled s.visible.macros body.clearMarks (editsOf t.pending body.postOrder) := by
  intro before path callee after hsplit
  obtain ⟨⟨q, n⟩, hn, hat, hbefore⟩ :=
    editsOf_split (Node.pairwise_postOrder body h.keyed) hsplit
  obtain rfl : path = q := (path_of_editAt? hat).1
  obtain ⟨kind, hfound, hformed⟩ := h.chosen hn hat
  obtain ⟨habove, hargs⟩ := h.beside hn hformed hbefore
  have hget : body.clearMarks.get? path = some n.clearMarks := by
    rw [Node.get?_clearMarks, Node.get?_of_mem_postOrder h.keyed hn]
    rfl
  have hword := wordOf_clearMarks n
  have hclear : searchGroup kind (s.visible.macros.group ⟨Template.wordOf n, kind⟩) n.clearMarks
      = (some callee, []) := by
    rw [← hfound]
    refine searchGroup_congr_outline (bracketed?_outline (Node.outline_clearMarks n) fun _ => ?_) _
    exact child?_clearMarks_outline _ n
  refine ⟨kind, n.clearMarks, hget, by rw [hword]; exact hclear, fun args copy target htarget => ?_⟩
  have houtline := applyEdits_outline habove htarget
  rw [hget] at houtline
  obtain ⟨slot, hslot, hsame⟩ := Option.map_eq_some_iff.mp houtline
  have hbracketed : (kind.bracketed? slot).map Node.outline
      = (kind.bracketed? n.clearMarks).map Node.outline := by
    refine bracketed?_outline hsame fun hk => ?_
    have hinside := applyEdits_outline (hargs hk) htarget
    rwa [Node.get?_append_singleton, Node.get?_append_singleton, hslot, hget] at hinside
  have hagain := (searchGroup_congr_outline hbracketed _).trans hclear
  have hmem : callee ∈ s.visible.macros.group ⟨Template.wordOf n, kind⟩ := by
    have hne := ne_nil_of_found (congrArg Prod.fst hfound)
    exact (searchGroup_spec kind (by simpa using hne) n).2 callee (congrArg Prod.fst hfound)
  have hself : kind = .access → ∃ self rest, slot.items? = some (self :: rest) := by
    intro hk
    obtain ⟨self, rest, hitems⟩ := hformed.self hk
    exact items?_of_outline (hsame.trans (Node.outline_clearMarks n)) hitems
  have hgroup : ∀ m ∈ s.visible.macros.group ⟨Template.wordOf n, kind⟩,
      m.signature = ⟨Template.wordOf n, kind⟩ :=
    fun m hm => by simpa using (List.mem_filter.mp hm).2
  obtain ⟨hbound, hquiet⟩ := bind_of_found hgroup rfl (hv callee (List.mem_filter.mp hmem).1) hself
    (congrArg Prod.fst hagain)
  exact ⟨slot, hslot, hsame, hbracketed, by rw [hword]; exact hagain, hbound, hquiet⟩

/-! ## Macros of a script -/

theorem makeMacro_exported (found : Option (Template × Node)) (u : ParserState) :
    Yields (makeMacro found) u fun _ v => ∀ m ∈ v.exported.macros.macros,
      m ∈ u.exported.macros.macros
        ∨ ∃ t body, found = some (t, body) ∧ (t.finish body).1 = some m := by
  cases found with
  | none => exact Yields.of_pure fun m hm => .inl hm
  | some read =>
    obtain ⟨t, body⟩ := read
    refine Yields.bind (addReports_extends _ u) fun _ v hv => ?_
    cases hfinish : (t.finish body).1 with
    | none => exact Yields.of_pure fun m hm => .inl (hv.exported ▸ hm)
    | some made =>
      refine Yields.get_bind (Yields.bind (addReports_extends _ v) fun _ w hw => ?_)
      refine Yields.of_modify fun m hm => ?_
      rcases MacroRegistry.mem_add hm with rfl | hm
      · exact .inr ⟨t, body, rfl, hfinish⟩
      · exact .inl (hv.exported ▸ hw.exported ▸ hm)

theorem macroStatement_exported (isFunction : Bool) (start : Nat)
    (hv : s.visible.macros.Checked) :
    ∀ m ∈ ((macroStatement isFunction start).run s).2.exported.macros.macros,
      m ∈ s.exported.macros.macros ∨ ∃ head body edits, m = .template head body edits
        ∧ Macro.checkHead head = .ok () ∧ CallsSettled s.visible.macros body edits := by
  intro m hm
  rw [macroStatement_eq] at hm
  have hread := readMacro_reads isFunction start s
  have hmade := makeMacro_exported ((readMacro isFunction start).run s).1
    ((readMacro isFunction start).run s).2 m hm
  obtain ⟨hgrown, hbody, -⟩ := hread
  rcases hmade with hold | ⟨t, body, hfound, hfinish⟩
  · exact .inl (hgrown.exported ▸ hold)
  · have hr := hbody t body hfound
    obtain ⟨hsub, hnodup⟩ := hr.marks
    obtain ⟨head, hc, rfl⟩ := finish_edits (hnodup.sublist hsub) hfinish
    exact .inr ⟨head, _, _, rfl, hc, hr.callsSettled hv⟩

/-! ## Visible macros stay checked -/

/-- If the macros that are visible are checked, they stay so. -/
def KeepsChecked (s t : ParserState) : Prop :=
  s.visible.macros.Checked → t.visible.macros.Checked

instance : IsPreorder ParserState KeepsChecked where
  refl _ := id
  trans _ _ _ h g := g ∘ h

theorem Extends.keepsChecked {s t : ParserState} (h : Extends s t) : KeepsChecked s t :=
  fun hs => h.visible ▸ hs

theorem Moves.keepsChecked {α : Type} {p : Parser α} (hp : Moves Extends p) :
    Moves KeepsChecked p :=
  hp.mono fun _ _ h => h.keepsChecked

theorem registerMacro_keepsChecked (start : Nat) {m : Macro}
    (hm : Macro.checkHead m.head = .ok ()) : Moves KeepsChecked (registerMacro start m) := by
  refine fun s => Yields.get_bind (Yields.bind (addReports_extends _ s) fun _ t _ => ?_)
  exact Yields.of_modify fun hs n hn => (MacroRegistry.mem_add hn).elim (fun he => he ▸ hm) (hs n)

theorem registerOperator_keepsChecked (start : Nat) (o : Operator) :
    Moves KeepsChecked (registerOperator start o) := by
  intro s
  unfold registerOperator
  refine Yields.get_bind (Yields.of_ite (fun _ => id) fun _ => Yields.of_ite (fun _ => ?_) fun _ =>
    (report_extends _).keepsChecked s)
  exact Yields.bind ((report_extends _).keepsChecked s) fun _ t ht => Yields.of_modify ht

theorem keepsChecked_rules : StatementRules (fun _ => True) (fun _ => True) (Reaches Extends)
    (Reaches KeepsChecked) :=
  reaches_rules extends_rules Extends.keepsChecked (fun _ => Moves.modify fun _ => id)
    (fun hu hs => hu.keepsChecked hs) (fun start _ => registerMacro_keepsChecked start)
    (fun start _ _ => registerOperator_keepsChecked start _)
    (fun _ => Moves.modify fun _ hs m hm => hs m (List.mem_filter.mp hm).1)
    fun _ _ => Moves.modify fun _ => id

theorem takeAnswer_keepsChecked (start : Nat) (purpose : Purpose) {found : Option Definition}
    (hf : ∀ d ∈ found, d.macros.Checked) (rs : List Report) :
    Moves KeepsChecked (takeAnswer start purpose found rs) :=
  moves_takeAnswer keepsChecked_rules
    (fun d hd _ hs m hm => (mem_copy hm).elim (hs m) (hf d hd m)) (fun _ _ _ => id) start purpose rs

/-- The macros of the definitions that a resolver answers with are checked. -/
def BringsChecked {σ : Type} (resolve : Resolver σ) : Prop :=
  ∀ path i d rs j, resolve path i = (.answered (some d) rs, j) → d.macros.Checked

theorem Reached.checked {σ : Type} {resolve : Resolver σ} {s t : ParserState} {i j : σ}
    (h : Reached resolve s i t j) (hr : BringsChecked resolve) : KeepsChecked s t := by
  induction h with
  | start => exact id
  | @turn t u j k _ ht ih =>
    have hread : KeepsChecked t (statement.run t).2 := keepsChecked_rules.statement.moves t
    have hturned := turn_turned resolve t j
    rw [ht] at hturned
    cases hturned with
    | complete _ hrun =>
      rw [hrun] at hread
      exact hread ∘ ih
    | @answered v path start purpose found rs k _ hrun ha =>
      rw [hrun] at hread
      have hfound : ∀ d ∈ found, d.macros.Checked := by
        rintro d rfl
        exact hr path j d rs k ha
      exact takeAnswer_keepsChecked start purpose hfound rs v ∘ hread ∘ ih

/-- Between any two statements of a script, if the macros that it knows at first and those that its
imports bring are checked: when the next statement defines a macro, what is exported after it and
was not before is a checked template whose calls are settled for good. At the moment a call of it
runs, in whatever application, the place of the call has the outline that it had when its macro was
chosen, so that the same macro would be chosen again, and that macro takes what stands there. -/
theorem made_calls_settled {σ : Type} (config : Config) (resolve : Resolver σ)
    (visible : Definition) (source : Source) (imports : σ) (hv : visible.macros.Checked)
    (hr : BringsChecked resolve) {s t : ParserState} {i : σ}
    (h : Reached resolve (start config visible source) imports s i)
    {token : Token} (hfirst : firstWord.run s = (token, t))
    (hword : token.statementWord = "macro" ∨ token.statementWord = "fn") :
    ∃ v, turn resolve s i = (.goesOn, v, i) ∧ ∀ m ∈ v.exported.macros.macros,
      m ∈ s.exported.macros.macros ∨ ∃ head body edits, m = .template head body edits
        ∧ Macro.checkHead head = .ok () ∧ CallsSettled s.visible.macros body edits := by
  have hstart : Extends s t := by
    have hnext := firstWord_extends s
    rwa [Yields, hfirst] at hnext
  have hchecked : t.visible.macros.Checked := hstart.keepsChecked (h.checked hr hv)
  obtain ⟨isFunction, hdefines⟩ : ∃ isFunction,
      (token.statementWord, macroStatement isFunction token.start) ∈ definers token.start := by
    rcases hword with hword | hword
    · exact ⟨false, by simp [definers, hword]⟩
    · exact ⟨true, by simp [definers, hword]⟩
  have hexported := macroStatement_exported isFunction token.start hchecked
  rw [hstart.exported, hstart.visible] at hexported
  exact ⟨_, turn_defines resolve hfirst hdefines i, hexported⟩

/-- A call of one of two overloads, with elements that arguments will be put in place of. -/
theorem made_calls_settled_overloads :
    let one : Macro := .template ⟨⟨"pair", .list⟩, [⟨"a", none⟩], none⟩ (.value "one") []
    let two : Macro :=
      .template ⟨⟨"pair", .list⟩, [⟨"a", none⟩, ⟨"b", none⟩], none⟩ (.value "two") []
    let resolve : Resolver Unit := fun _ i => (.answered none [], i)
    let s := Parser.start {} { macros := ⟨[one, two]⟩ }
      (Source.ofText "macro m[x] : pair[x, x]")
    s.visible.macros.Checked ∧ BringsChecked resolve
      ∧ (firstWord.run s).1.statementWord = "macro"
      ∧ ∃ head body edits, .template head body edits
          ∈ (turn resolve s ()).2.1.exported.macros.macros
        ∧ edits.map (fun e => (e.path, e.action))
          = [([.index 0], "value replacement of parameter #0"),
            ([.index 1], "value replacement of parameter #0"), ([], "call to macro pair[]")]
        ∧ CallsSettled s.visible.macros body edits := by
  intro one two resolve s
  have hv : s.visible.macros.Checked := by
    intro m hm
    rcases List.mem_cons.mp hm with rfl | hm
    · rfl
    · exact List.mem_singleton.mp hm ▸ rfl
  have hr : BringsChecked resolve := by simp [BringsChecked, resolve]
  have hword : (firstWord.run s).1.statementWord = "macro" := by decide +kernel
  have hmade : ((turn resolve s ()).2.1.exported.macros.macros.map fun m =>
      m.edits.map fun e => (e.path, e.action))
        = [[([.index 0], "value replacement of parameter #0"),
            ([.index 1], "value replacement of parameter #0"), ([], "call to macro pair[]")]] := by
    decide +kernel
  obtain ⟨m, hm, hedits⟩ := List.mem_map.mp (hmade ▸ List.mem_singleton_self _)
  have hfirst : firstWord.run s = ((firstWord.run s).1, (firstWord.run s).2) := rfl
  obtain ⟨v, hturn, hsettled⟩ :=
    made_calls_settled {} resolve _ _ () hv hr .start hfirst (.inl hword)
  have hm' : m ∈ v.exported.macros.macros := by
    rw [show v = (turn resolve s ()).2.1 from congrArg (·.2.1) hturn.symm]
    exact hm
  rcases hsettled m hm' with hold | ⟨head, body, edits, rfl, -, hcalls⟩
  · simp [start] at hold
  · exact ⟨hv, hr, hword, head, body, edits, hm, hedits, hcalls⟩

end Parser

end ConfigScript
