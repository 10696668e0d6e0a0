import ConfigScript.Proofs.Macro.Known
import ConfigScript.Proofs.Macro.Fit
import ConfigScript.Proofs.Node.Marked
import ConfigScript.Proofs.Parser.GrowthValues

/-! # Marks are accounted for

While the body of a macro is read, every new mark is given to a node in hand, together with what is
to happen to that node. As long as no error is reported, each mark is on a node in hand, or is
counted as lost. -/

namespace ConfigScript

/-- What a turn of a loop comes to, be it the last one or not. -/
def Turn.value {α : Type} : Turn α → α
  | .again a => a
  | .done a => a

/-! ## What is recorded -/

/-- A call that macros of a kind take: one of an access has `self`, and what stands in the brackets
of a function's call is not to be changed as a whole. -/
structure Formed (kind : MacroKind) (call : Node) : Prop where
  self : kind = .access → ∃ self rest, call.items? = some (self :: rest)
  args : kind.isFunction = true → ∀ arg, kind.bracketed? call = some arg → arg.mark = none

theorem Formed.plain {kind : MacroKind} (h : kind.isFunction = false) (call : Node) :
    Formed kind call :=
  ⟨fun hk => by simp [hk, MacroKind.isFunction] at h, fun hk => by simp [hk] at h⟩

theorem Formed.setMark {kind : MacroKind} {call : Node} (h : Formed kind call) (k : Option Nat) :
    Formed kind (call.setMark k) := by
  have hitems : (call.setMark k).items? = call.items? := by cases call <;> rfl
  refine ⟨fun hk => hitems ▸ h.self hk, fun hk arg harg => h.args hk arg ?_⟩
  rw [MacroKind.bracketed?, if_pos hk, hitems] at harg
  rw [MacroKind.bracketed?, if_pos hk, harg]

/-- A macro was found for a call, and for no other one. -/
structure Chosen (macros : MacroRegistry) (kind : MacroKind) (callee : Macro) (call : Node) :
    Prop where
  found : searchGroup kind (macros.group ⟨Template.wordOf call, kind⟩) call = (some callee, [])
  formed : Formed kind call

theorem Chosen.setMark {macros : MacroRegistry} {kind : MacroKind} {callee : Macro} {call : Node}
    (h : Chosen macros kind callee call) (k : Option Nat) :
    Chosen macros kind callee (call.setMark k) := by
  refine ⟨?_, h.formed.setMark k⟩
  rw [← h.found]
  cases call <;> rfl

/-- What is to happen to a marked node was recorded for that node. -/
def RecordedFor (macros : MacroRegistry) (p : Nat × Edit) (q : Nat × Node) : Prop :=
  p.1 = q.1 ∧ ∀ path callee, p.2 = .call path callee → ∃ kind, Chosen macros kind callee q.2

theorem recordedFor_map_fst {macros : MacroRegistry} {pending : List (Nat × Edit)}
    {new : List (Nat × Node)} (h : List.Forall₂ (RecordedFor macros) pending new) :
    pending.map Prod.fst = new.map Prod.fst := by
  induction h with
  | nil => rfl
  | cons hp _ ih => rw [List.map_cons, List.map_cons, hp.1, ih]

/-- What marking nodes makes of a template. -/
structure Template.Grants (macros : MacroRegistry) (t u : Template) (new : List (Nat × Node)) :
    Prop where
  start : u.start = t.start
  signature : u.signature = t.signature
  params : u.params = t.params
  invalid : u.invalid = t.invalid
  next : u.nextMark = t.nextMark + new.length
  numbered : new.map Prod.fst = List.range' t.nextMark new.length
  pending : ∃ more, u.pending = t.pending ++ more ∧ List.Forall₂ (RecordedFor macros) more new

namespace Template.Grants

variable {macros : MacroRegistry} {t u v : Template} {new newer : List (Nat × Node)}

theorem infer (macros : MacroRegistry) (t : Template) (inferences : Option (List ShapeSet)) :
    t.Grants macros { t with inferences } [] :=
  ⟨rfl, rfl, rfl, rfl, rfl, rfl, [], (List.append_nil _).symm, .nil⟩

theorem refl (macros : MacroRegistry) (t : Template) : t.Grants macros t [] :=
  infer macros t t.inferences

theorem trans (h : t.Grants macros u new) (g : u.Grants macros v newer) :
    t.Grants macros v (new ++ newer) := by
  obtain ⟨more, hmore, hnew⟩ := h.pending
  obtain ⟨later, hlater, hnewer⟩ := g.pending
  refine ⟨g.start.trans h.start, g.signature.trans h.signature, g.params.trans h.params,
    g.invalid.trans h.invalid, ?_, ?_, more ++ later, ?_, List.rel_append hnew hnewer⟩
  · rw [g.next, h.next, List.length_append, Nat.add_assoc]
  · rw [List.map_append, h.numbered, g.numbered, h.next, List.length_append,
      List.range'_append_1]
  · rw [hlater, hmore, List.append_assoc]

theorem mark {n : Node} {e : Edit} (he : ∀ path callee, e = .call path callee →
    ∃ kind, Chosen macros kind callee n) :
    t.Grants macros (t.mark n e).2 [(t.nextMark, (t.mark n e).1)] := by
  refine ⟨rfl, rfl, rfl, rfl, rfl, rfl, [(t.nextMark, e)], rfl, .cons ⟨rfl, ?_⟩ .nil⟩
  intro path callee hcall
  obtain ⟨kind, hkind⟩ := he path callee hcall
  exact ⟨kind, hkind.setMark _⟩

theorem narrow (macros : MacroRegistry) (t : Template) (i : Nat) (p : Param) (shapes : ShapeSet) :
    t.Grants macros (t.narrow i p shapes).1 [] := by
  unfold Template.narrow
  simp only
  split
  · exact infer macros t _
  · exact infer macros t _

theorem resolveParam? (macros : MacroRegistry) {n m : Node} {rs : List Report}
    (h : t.resolveParam? n = some (m, u, rs)) :
    m = n ∧ t.Grants macros u []
      ∨ m = n.setMark (some t.nextMark) ∧ t.Grants macros u [(t.nextMark, m)] := by
  unfold Template.resolveParam? at h
  split at h
  · simp at h
  · rename_i p i _
    have hmark {t' : Template} {e : Edit} (ht : t.Grants macros t' [])
        (he : ∀ path callee, e ≠ .call path callee) :
        t.Grants macros (t'.mark n e).2 [(t.nextMark, n.setMark (some t.nextMark))] := by
      have hnext : t'.nextMark = t.nextMark := ht.next
      rw [← hnext]
      exact ht.trans (mark fun path callee h => absurd h (he path callee))
    cases hp : n.isPrimitive with
    | true =>
      simp only [hp, if_true] at h
      split at h
      · simp only [Option.some.injEq, Prod.mk.injEq] at h
        exact .inl ⟨h.1.symm, h.2.1 ▸ refl macros t⟩
      · simp only [Option.some.injEq, Prod.mk.injEq] at h
        have hm : m = n.setMark (some t.nextMark) := h.1.symm
        exact .inr ⟨hm, by rw [hm, ← h.2.1]; exact hmark (refl macros t) (by simp)⟩
    | false =>
      have hnarrow := narrow macros t i p .primitive
      simp only [hp, Bool.false_eq_true, if_false] at h
      split at h
      · simp only [Option.some.injEq, Prod.mk.injEq] at h
        exact .inl ⟨h.1.symm, h.2.1 ▸ hnarrow⟩
      · simp only [Option.some.injEq, Prod.mk.injEq] at h
        have hnext : (t.narrow i p .primitive).1.nextMark = t.nextMark := hnarrow.next
        have hm : m = n.setMark (some t.nextMark) := hnext ▸ h.1.symm
        exact .inr ⟨hm, by rw [hm, ← h.2.1]; exact hmark hnarrow (by simp)⟩

end Template.Grants

namespace Parser

variable {α β : Type} {s t u : ParserState} {before after : List Node}

/-! ## Errors -/

/-- No error was reported on the way, and reports were not dropped. -/
def Clean (s t : ParserState) : Prop :=
  s.recovering = false ∧ countOf .error t.reports = countOf .error s.reports

theorem countOf_append (severity : Severity) (rs ss : List Report) :
    countOf severity (rs ++ ss) = countOf severity rs + countOf severity ss := List.countP_append

theorem countOf_pos {rs : List Report} (h : hasError rs = true) : 0 < countOf .error rs := by
  obtain ⟨r, hr, he⟩ := List.any_eq_true.mp h
  exact List.countP_pos_iff.mpr ⟨r, hr, he⟩

theorem Extends.countOf_le (h : Extends s t) (severity : Severity) :
    countOf severity s.reports ≤ countOf severity t.reports := by
  obtain ⟨rs, hrs⟩ := h.reports
  rw [← hrs, countOf_append]
  exact Nat.le_add_right _ _

theorem Clean.split (hc : Clean s u) (h : Extends s t) (g : Extends t u) :
    Clean s t ∧ Clean t u := by
  have hst := h.countOf_le .error
  have htu := g.countOf_le .error
  have hsu := hc.2
  exact ⟨⟨hc.1, by omega⟩, h.recovering.trans hc.1, by omega⟩

/-! ## Accounts -/

/-- The marked nodes among some nodes and below them. -/
def markedIn (ns : List Node) : List (Nat × Node) := ns.flatMap Node.marked

theorem markedIn_append (ms ns : List Node) : markedIn (ms ++ ns) = markedIn ms ++ markedIn ns :=
  List.flatMap_append

theorem markedIn_singleton (n : Node) : markedIn [n] = n.marked := List.append_nil _

/-- From one state to another, some nodes in hand have become others. The marks on the new ones
are from the old ones or were given on the way, and none is gone but with an error or a loss. -/
structure Account (s t : ParserState) (before after : List Node) : Prop where
  grown : Extends s t
  outside : s.template = none → t.lost = s.lost
  keyed : s.template.isSome = true → (∀ n ∈ before, n.Keyed) → ∀ n ∈ after, n.Keyed
  inside : ∀ template, s.template = some template → ∃ template' new, t.template = some template'
    ∧ template.Grants s.visible.macros template' new
    ∧ (markedIn after).Sublist (markedIn before ++ new)
    ∧ (Clean s t → new.length + (markedIn before).length + s.lost
      = (markedIn after).length + t.lost)

theorem Account.leave (h : Extends s t) (ht : t.template = s.template) {marks : List Nat}
    (hlost : t.lost = lostWith marks s) (hkeyed : (∀ n ∈ before, n.Keyed) → ∀ n ∈ after, n.Keyed)
    (hsub : (markedIn after).Sublist (markedIn before))
    (hcount : (markedIn after).length + marks.length = (markedIn before).length) :
    Account s t before after := by
  refine ⟨h, fun hn => ?_, fun _ => hkeyed, fun template hs => ?_⟩
  · rw [hlost, lostWith_of_none _ hn]
  · refine ⟨template, [], ht.trans hs, .refl _ _, by rwa [List.append_nil], fun _ => ?_⟩
    rw [hlost, lostWith, hs, Option.isSome_some, if_pos rfl, List.length_nil]
    omega

theorem Account.regroup (s : ParserState) (hkeyed : (∀ n ∈ before, n.Keyed) → ∀ n ∈ after, n.Keyed)
    (hsame : markedIn after = markedIn before) : Account s s before after :=
  .leave (.refl s) rfl (lostWith_nil s).symm hkeyed (hsame ▸ List.Sublist.refl _)
    (by rw [hsame]; rfl)

theorem Account.refl (s : ParserState) (before : List Node) : Account s s before before :=
  .regroup s id rfl

theorem Account.trans {between : List Node} (h : Account s t before between)
    (g : Account t u between after) : Account s u before after := by
  refine ⟨h.grown.trans g.grown, fun hn => ?_, fun hs hb => ?_, fun template hs => ?_⟩
  · rw [g.outside (h.grown.template hn), h.outside hn]
  · refine g.keyed ?_ (h.keyed hs hb)
    obtain ⟨template, hs⟩ := Option.isSome_iff_exists.mp hs
    obtain ⟨template', -, ht, -⟩ := h.inside template hs
    rw [ht]
    rfl
  · obtain ⟨template', new, ht, hrec, hsub, hcount⟩ := h.inside template hs
    obtain ⟨template'', newer, hu, hrec', hsub', hcount'⟩ := g.inside template' ht
    rw [h.grown.visible] at hrec'
    refine ⟨template'', new ++ newer, hu, hrec.trans hrec', ?_, fun hc => ?_⟩
    · rw [← List.append_assoc]
      exact hsub'.trans (hsub.append_right newer)
    · obtain ⟨hst, htu⟩ := hc.split h.grown g.grown
      have hfirst := hcount hst
      have hsecond := hcount' htu
      rw [List.length_append]
      omega

theorem Account.frame (held : List Node) (h : Account s t before after) :
    Account s t (held ++ before) (held ++ after) := by
  refine ⟨h.grown, h.outside, fun hs hb => ?_, fun template hs => ?_⟩
  · rw [List.forall_mem_append] at hb ⊢
    exact ⟨hb.1, h.keyed hs hb.2⟩
  · obtain ⟨template', new, ht, hrec, hsub, hcount⟩ := h.inside template hs
    refine ⟨template', new, ht, hrec, ?_, fun hc => ?_⟩
    · rw [markedIn_append, markedIn_append, List.append_assoc]
      exact hsub.append_left _
    · have := hcount hc
      rw [markedIn_append, markedIn_append, List.length_append, List.length_append]
      omega

/-! ## Steps that leave marks alone -/

/-- Neither the template nor what was lost changes. -/
structure Aside (s t : ParserState) : Prop where
  grown : Extends s t
  template : t.template = s.template
  lost : t.lost = s.lost

instance : IsPreorder ParserState Aside where
  refl s := ⟨.refl s, rfl, rfl⟩
  trans _ _ _ h g :=
    ⟨h.grown.trans g.grown, g.template.trans h.template, g.lost.trans h.lost⟩

theorem Aside.account (h : Aside s t) (before : List Node) : Account s t before before :=
  .leave h.grown h.template (h.lost.trans (lostWith_nil s).symm) id (List.Sublist.refl _) rfl

theorem addReports_aside (rs : List Report) : Moves Aside (addReports rs) := by
  intro s
  have hgrown : Extends s ((addReports rs).run s).2 := addReports_extends rs s
  refine ⟨hgrown, ?_, ?_⟩
  · change (if s.recovering then s else _).template = _
    split <;> rfl
  · change (if s.recovering then s else _).lost = _
    split <;> rfl

theorem error_aside (message : String) : Moves Aside (error message) := addReports_aside _

theorem reportDuplicate_aside (key : String) (position : Nat) :
    Moves Aside (reportDuplicate key position) :=
  Moves.get_bind fun _ => addReports_aside _

theorem next_aside (skipBreaks : Bool) (mode : ReadMode) : Moves Aside (next skipBreaks mode) := by
  intro s
  refine Yields.get_bind (Yields.set_bind (Yields.bind (addReports_aside _ _) fun _ t ht => ?_))
  exact Yields.of_pure ⟨⟨ht.1.1, ht.1.2, ht.1.3, ht.1.4, ht.1.5, ht.1.6, ht.1.7, ht.1.8, ht.1.9,
    fun _ => ht.1.10 rfl, ht.1.11⟩, ht.2, ht.3⟩

theorem discard_aside : Moves Aside discard := fun s => ⟨discard_extends s, rfl, rfl⟩

theorem rewind_aside (again : Bool) : Moves Aside (rewind again) :=
  fun s => ⟨rewind_extends again s, rfl, rfl⟩

theorem exhaust_aside : Moves Aside exhaust := fun s => ⟨exhaust_extends s, rfl, rfl⟩

theorem substitute_aside : Moves Aside substitute := fun s => ⟨substitute_extends s, rfl, rfl⟩

/-! ## Readers -/

/-- A parser that accounts for marks: it takes some nodes and gives others. -/
def Accounts (p : Parser α) (before : List Node) (after : α → List Node) : Prop :=
  ∀ s, Yields p s fun a t => Account s t before (after a)

variable {p : Parser α} {g : α → Parser β} {between : α → List Node} {done : β → List Node}

theorem Accounts.pure {after : α → List Node} {a : α} (h : after a = before) :
    Accounts (pure a) before after :=
  fun s => Yields.of_pure (h ▸ .refl s before)

theorem Accounts.regroup {after : α → List Node} {a : α}
    (hkeyed : (∀ n ∈ before, n.Keyed) → ∀ n ∈ after a, n.Keyed)
    (hsame : markedIn (after a) = markedIn before) : Accounts (Pure.pure a) before after :=
  fun s => Yields.of_pure (.regroup s hkeyed hsame)

theorem Accounts.bind (hp : Accounts p before between)
    (hg : ∀ a, Accounts (g a) (between a) done) : Accounts (p >>= g) before done :=
  fun s => Yields.bind (hp s) fun a t ht => (hg a t).mono fun _ _ hu => ht.trans hu

theorem Accounts.bind_of {Q : α → Prop} (hp : Accounts p before between)
    (hq : ∀ s, Yields p s fun a _ => Q a) (hg : ∀ a, Q a → Accounts (g a) (between a) done) :
    Accounts (p >>= g) before done :=
  fun s => Yields.bind ((hp s).and (hq s)) fun a t ht =>
    (hg a ht.2 t).mono fun _ _ hu => ht.1.trans hu

theorem Accounts.aside (hp : Moves Aside p) : Accounts p before fun _ => before :=
  fun s => (hp s).mono fun _ _ ht => ht.account before

theorem Accounts.ite {c : Prop} [Decidable c] {q : Parser α} {after : α → List Node}
    (hp : c → Accounts p before after) (hq : ¬c → Accounts q before after) :
    Accounts (if c then p else q) before after :=
  fun s => Yields.of_ite (fun h => hp h s) fun h => hq h s

theorem Accounts.frame {after : α → List Node} (held : List Node) (hp : Accounts p before after) :
    Accounts p (held ++ before) fun a => held ++ after a :=
  fun s => (hp s).mono fun _ _ ht => ht.frame held

theorem Accounts.loop {step : α → Parser (Turn α)} (nodes : α → List Node)
    (hstep : ∀ a, Accounts (step a) (nodes a) fun r => nodes r.value) (a : α) :
    Accounts (loop step a) (nodes a) nodes := by
  intro s
  refine Yields.get_bind (Yields.of_turns_keep (I := fun b t => Account s t (nodes a) (nodes b))
    (fun b t ht => ?_) (fun b t ht => ht.trans ((exhaust_aside t).account _)) (.refl s _))
  refine (hstep b t).mono fun r u hu => ?_
  cases r with
  | again c => exact ht.trans hu
  | done c => exact ht.trans hu

/-- What is read outside of the macro's body is left out without a trace. -/
theorem Accounts.outside {after : α → List Node} (hp : Accounts p [] after) :
    Moves Aside (outsideTemplate p) := by
  intro s
  refine Yields.of_outsideTemplate ((hp _).mono fun _ t ht => ?_)
  have h := ht.grown
  exact ⟨⟨h.1, h.2, h.3, h.4, h.5, id, h.7, h.8, h.9, h.10, h.11⟩, rfl, ht.outside rfl⟩

/-! ## Expansion -/

theorem Account.record {template template' : Template} {new : List (Nat × Node)}
    (hs : s.template = some template) (hr : template.Grants s.visible.macros template' new)
    (hkeyed : (∀ n ∈ before, n.Keyed) → ∀ n ∈ after, n.Keyed)
    (hsame : markedIn after = markedIn before ++ new) :
    Account s { s with template := some template' } before after := by
  refine ⟨⟨rfl, rfl, rfl, rfl, rfl, by simp [hs], List.prefix_rfl, id, fun _ => rfl, id, id⟩,
    fun hn => rfl, fun _ => hkeyed, fun t ht => ?_⟩
  rw [hs, Option.some.injEq] at ht
  subst ht
  refine ⟨template', new, rfl, hr, hsame ▸ List.Sublist.refl _, fun _ => ?_⟩
  rw [hsame, List.length_append]
  simp only
  omega

theorem Account.broken (h : Aside s t) (hne : ¬Clean s t) (before : List Node) :
    Account s t before [Node.errorValue] := by
  refine ⟨h.grown, fun _ => h.lost, fun _ _ n hn => ?_, fun template hs => ?_⟩
  · rw [List.mem_singleton.mp hn]
    trivial
  · exact ⟨template, [], h.template.trans hs, .refl _ _, List.nil_sublist _,
      fun hc => absurd hc hne⟩

theorem Account.loose (h : Aside s t) (hs : s.template = none) (before after : List Node) :
    Account s t before after :=
  ⟨h.grown, fun _ => h.lost, by simp [hs], by simp [hs]⟩

theorem not_clean_of_hasError {rs : List Report} (h : hasError rs = true) :
    Yields (addReports rs) s fun _ t => ¬Clean s t := by
  refine Yields.of_modify ?_
  split
  · rename_i hr
    exact fun hc => by simp [hc.1] at hr
  · intro hc
    have hpos : 0 < countOf .error (rs.map (Report.orAt (some s.tokenizer.lastStart))) :=
      countOf_pos (by rwa [hasError_map_orAt])
    have hsame := hc.2
    rw [countOf_append] at hsame
    omega

theorem resolveParam?_accounts {n : Node} (hn : n.mark = none) :
    Accounts (resolveParam? n) [n] fun found => [found.getD n] := by
  intro s
  refine Yields.get_bind ?_
  split
  · exact Yields.of_pure (.refl s [n])
  · rename_i m t rs he
    obtain ⟨template, hs, hr⟩ := Option.bind_eq_some_iff.mp he
    have hmarked : Account s { s with template := some t } [n] [m] := by
      rcases Template.Grants.resolveParam? s.visible.macros hr with ⟨rfl, hg⟩ | ⟨rfl, hg⟩
      · exact .record hs hg id (List.append_nil _).symm
      · refine .record hs hg (fun h x hx => ?_) ?_
        · rw [List.mem_singleton.mp hx]
          exact Node.keyed_setMark _ (h n List.mem_cons_self)
        · rw [markedIn_singleton, markedIn_singleton, Node.marked_setMark hn]
    refine Yields.modify_bind (Yields.bind (addReports_aside rs _) fun _ u hu => ?_)
    exact Yields.of_pure (hmarked.trans (hu.account _))

theorem expanded_aside (name : String) (position : Nat) (r : MacroResult) :
    Moves Aside (expanded name position r) := by
  cases r with
  | produced n => exact Moves.pure _
  | refused => exact substitute_aside
  | fault f => exact Moves.bind (addReports_aside _) fun _ => substitute_aside
  | crashed message => exact Moves.bind (addReports_aside _) fun _ => substitute_aside

theorem searchGroup_quiet {kind : MacroKind} {group : List Macro} {call : Node} {m : Macro}
    (h : (searchGroup kind group call).1 = some m) : (searchGroup kind group call).2 = [] := by
  have hchoose (arg : Node) :
      (chooseOverload group arg).1 = some m → (chooseOverload group arg).2 = [] := by
    unfold chooseOverload
    split
    · exact fun _ => rfl
    · simp
    · simp
  revert h
  unfold searchGroup
  split
  · split
    · split
      · exact hchoose _
      · simp
    · exact hchoose _
  · exact fun _ => rfl

/-- A call that has no mark of its own is marked if there is a macro for it. -/
theorem callMacro_accounts {n : Node} {kind : MacroKind} (hn : n.mark = none)
    (hf : Formed kind n) (position : Nat) :
    Accounts (callMacro n kind position) [n] fun m => [m] := by
  intro s
  refine Yields.get_bind ?_
  simp only
  cases hg : (s.visible.macros.group ⟨Template.wordOf n, kind⟩).isEmpty with
  | true => exact Yields.of_pure (.refl s [n])
  | false =>
    have hspeaks := (searchGroup_spec kind hg n).1
    cases hfound : searchGroup kind (s.visible.macros.group ⟨Template.wordOf n, kind⟩) n with
    | mk found rs =>
      rw [hfound] at hspeaks
      simp only [Bool.false_eq_true, if_false]
      cases found with
      | none =>
        -- The search has said why, so the error value stands beside an error.
        have he : hasError (rs.map (Report.orAt (some position))) = true := by
          rw [hasError_map_orAt]
          exact hspeaks rfl
        refine Yields.bind ((addReports_aside _ s).and (not_clean_of_hasError he)) fun _ t ht => ?_
        have hsubstitute : Yields substitute t fun r u => r = Node.errorValue ∧ Aside t u :=
          ⟨rfl, substitute_aside t⟩
        refine hsubstitute.mono fun r u hu => hu.1 ▸ ?_
        exact .broken (trans_of Aside ht.1 hu.2)
          (fun hc => ht.2 (hc.split ht.1.grown hu.2.grown).1) _
      | some m =>
        have hquiet : rs = [] := by
          have := searchGroup_quiet (congrArg Prod.fst hfound)
          rwa [hfound] at this
        subst hquiet
        refine Yields.bind (addReports_aside _ s) fun _ t ht => ?_
        cases hs : s.template with
        | none =>
          refine Yields.bind (addReports_aside _ t) fun _ u hu => ?_
          refine (expanded_aside _ _ _ u).mono fun r v hv => ?_
          exact .loose (trans_of Aside (trans_of Aside ht hu) hv) hs _ _
        | some template =>
          refine Yields.modify_bind (Yields.of_pure ((ht.account [n]).trans ?_))
          refine .record (ht.template.trans hs) (.mark fun path callee hcall => ?_)
            (fun h x hx => ?_) ?_
          · obtain ⟨-, rfl⟩ := Edit.call.inj hcall
            exact ⟨kind, ht.grown.visible ▸ hfound, hf⟩
          · rw [List.mem_singleton.mp hx]
            exact Node.keyed_setMark _ (h n List.mem_cons_self)
          · rw [markedIn_singleton, markedIn_singleton]
            exact Node.marked_setMark hn _

theorem primitiveValue_accounts (token : Token) :
    Accounts (primitiveValue token) [] fun n => [n] := by
  have hfresh (s : ParserState) :
      Account s s [] [(Node.value token.text).placedAt token.start] :=
    .regroup s (fun _ => List.forall_mem_singleton.mpr trivial) rfl
  have hvalue : Accounts (primitiveValue token)
      [(Node.value token.text).placedAt token.start] fun n => [n] := ?_
  · exact fun s => (hvalue s).mono fun n t ht => (hfresh s).trans ht
  unfold primitiveValue
  refine Accounts.ite (fun _ => Accounts.pure rfl) fun _ => ?_
  refine Accounts.bind (resolveParam?_accounts rfl) fun found => ?_
  cases found with
  | some n => exact Accounts.pure rfl
  | none => exact callMacro_accounts rfl (Formed.plain rfl _) _

theorem namedValue_accounts {n : Node} (hn : n.mark = none) (token : Token) {kind : MacroKind}
    (hk : kind.isFunction = false) : Accounts (namedValue token kind n) [n] Option.toList := by
  unfold namedValue
  refine Accounts.ite (fun _ => Accounts.pure rfl) fun _ => ?_
  refine Accounts.bind (resolveParam?_accounts hn) fun found => ?_
  cases found with
  | some m => exact Accounts.pure rfl
  | none =>
    exact Accounts.bind (callMacro_accounts hn (Formed.plain hk n) _) fun m => Accounts.pure rfl

theorem Account.listed (s : ParserState) (name : String) (op : Bool) (ns : List Node)
    (position : Nat) : Account s s ns [(Node.list name op ns {}).placedAt position] := by
  refine .regroup s (fun h n hn => ?_) ?_
  · rw [List.mem_singleton.mp hn]
    exact Node.keyedItems_iff.mpr h
  · rw [markedIn_singleton]
    exact Node.marked_list_of_unmarked (i := { position := some position }) rfl name op ns

theorem operatorCall_accounts (o : Operator) (operands : List Node) (position : Nat) :
    Accounts (operatorCall o operands position) operands fun n => [n] :=
  fun s => (callMacro_accounts rfl (Formed.plain rfl _) position s).mono fun _ _ ht =>
    (Account.listed s _ true operands position).trans ht

theorem noteAccess_accounts (b : Node)
    (hkeyed : (∀ n ∈ before, n.Keyed) → ∀ n ∈ after, n.Keyed)
    (hsub : (markedIn after).Sublist (markedIn before))
    (hcount : (markedIn after).length + b.mark.toList.length = (markedIn before).length) :
    Accounts (noteAccess b) before fun _ => after :=
  fun s => .leave (noteAccess_extends b s) rfl rfl hkeyed hsub hcount

theorem listedCall_accounts {operands : List Node} {kind : MacroKind} (name : String)
    (position : Nat)
    (hf : Formed kind ((Node.list name false operands {}).placedAt position)) :
    Accounts (callMacro ((Node.list name false operands {}).placedAt position) kind position)
      operands fun n => [n] :=
  fun s => (callMacro_accounts rfl hf position s).mono fun _ _ ht =>
    (Account.listed s name false operands position).trans ht

/-- The right operand of an accessor loses its own mark, and what is below it stays. -/
theorem markedIn_bared (a : Node) {b : Node} (rest : List Node)
    (hb : b.marked = markedIn rest ++ b.withMark?.toList) :
    (markedIn (a :: rest)).Sublist (markedIn [a, b])
      ∧ (markedIn (a :: rest)).length + b.mark.toList.length = (markedIn [a, b]).length := by
  have hbefore : markedIn [a, b] = markedIn (a :: rest) ++ b.withMark?.toList := by
    rw [← List.singleton_append, ← List.singleton_append (l := rest), markedIn_append,
      markedIn_append, markedIn_singleton b, hb, List.append_assoc]
  rw [hbefore, List.length_append, Node.length_withMark?]
  exact ⟨List.sublist_append_left _ _, rfl⟩

theorem accessorCall_accounts (a b : Node) (o : Operator) (position : Nat) :
    Accounts (accessorCall a b o position) [a, b] fun n => [n] := by
  have hpair {kind : MacroKind} (hk : kind ≠ .access) (name : String) {bare : Node}
      (hbare : bare.mark = none) :
      Formed kind ((Node.list name false [a, bare] {}).placedAt position) := by
    refine ⟨fun h => absurd h hk, fun hfun arg harg => ?_⟩
    rw [MacroKind.bracketed?, if_pos hfun] at harg
    exact Option.some.inj harg ▸ hbare
  unfold accessorCall
  cases b with
  | primitive name info =>
    obtain ⟨hsub, hcount⟩ := markedIn_bared a [] (Node.marked_primitive name info)
    refine Accounts.bind (noteAccess_accounts _ (fun h => ?_) hsub hcount) fun _ => ?_
    · exact List.forall_mem_singleton.mpr (h a List.mem_cons_self)
    · refine listedCall_accounts _ position ⟨fun _ => ⟨a, [], rfl⟩, fun hfun arg harg => ?_⟩
      rw [MacroKind.bracketed?, if_pos hfun] at harg
      exact absurd harg (by simp [Node.items?, Node.placedAt, Node.setPosition, Node.setInfo])
  | object name props info =>
    have hbare := Node.marked_object_of_unmarked (i := { info with mark := none }) rfl "" props
    obtain ⟨hsub, hcount⟩ := markedIn_bared a (b := .object name props info)
      [.object "" props { info with mark := none }]
      (by rw [markedIn_singleton, hbare]; exact Node.marked_object name props info)
    refine Accounts.bind (noteAccess_accounts _ (fun h => ?_) hsub hcount) fun _ =>
      listedCall_accounts _ position (hpair (by simp) _ rfl)
    rw [List.forall_mem_cons, List.forall_mem_singleton] at h ⊢
    exact h
  | list name op items info =>
    have hbare := Node.marked_list_of_unmarked (i := { info with mark := none }) rfl "" op items
    obtain ⟨hsub, hcount⟩ := markedIn_bared a (b := .list name op items info)
      [.list "" op items { info with mark := none }]
      (by rw [markedIn_singleton, hbare]; exact Node.marked_list name op items info)
    refine Accounts.bind (noteAccess_accounts _ (fun h => ?_) hsub hcount) fun _ =>
      listedCall_accounts _ position (hpair (by cases op <;> simp) _ rfl)
    rw [List.forall_mem_cons, List.forall_mem_singleton] at h ⊢
    exact h

end Parser

end ConfigScript
