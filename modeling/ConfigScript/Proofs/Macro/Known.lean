import ConfigScript.Macro.Template
import ConfigScript.Parser.Statement
import ConfigScript.Proofs.Macro.Registration
import ConfigScript.Proofs.Macro.Selection
import ConfigScript.Proofs.Macro.Trusted

/-! # Known macros are trusted

Registries and templates under construction that hold trusted macros alone still do so after each
of their operations, and the macro that a template becomes is trusted. -/

namespace ConfigScript

/-! ## Registries -/

/-- A registry of trusted macros. -/
def MacroRegistry.Trusted (r : MacroRegistry) : Prop := ∀ m ∈ r.macros, m.Trusted

namespace MacroRegistry

variable {r : MacroRegistry} {m : Macro}

theorem mem_add {n : Macro} (h : n ∈ (r.add m).1.macros) : n = m ∨ n ∈ r.macros :=
  (mem_insertOrdered h).imp_right fun hn => (List.mem_filter.mp hn).1

theorem Trusted.add (hr : r.Trusted) (hm : m.Trusted) : (r.add m).1.Trusted := by
  intro n hn
  rcases mem_add hn with rfl | hn
  · exact hm
  · exact hr n hn

theorem Trusted.remove (hr : r.Trusted) (s : Signature) : (r.remove s).Trusted :=
  fun n hn => hr n (List.mem_filter.mp hn).1

theorem Trusted.group (hr : r.Trusted) (s : Signature) : ∀ n ∈ r.group s, n.Trusted :=
  fun n hn => hr n (List.mem_filter.mp hn).1

end MacroRegistry

theorem mem_copyMacros {d : Definition} {ms : List Macro} {n : Macro}
    (h : n ∈ (d.copyMacros ms).1.macros.macros) : n ∈ d.macros.macros ∨ n ∈ ms := by
  induction ms generalizing d with
  | nil => exact .inl h
  | cons m ms ih =>
    rcases ih h with hn | hn
    · rcases MacroRegistry.mem_add hn with rfl | hn
      · exact .inr List.mem_cons_self
      · exact .inl hn
    · exact .inr (List.mem_cons_of_mem m hn)

theorem copyOperators_macros (d : Definition) (os : List Operator) :
    (d.copyOperators os).1.macros = d.macros := by
  induction os generalizing d with
  | nil => rfl
  | cons o os ih => exact ih _

theorem mem_copy {d source : Definition} {n : Macro}
    (h : n ∈ (d.copy source).1.macros.macros) :
    n ∈ d.macros.macros ∨ n ∈ source.macros.macros := by
  have he : (d.copy source).1.macros = (d.copyMacros source.macros.macros).1.macros :=
    copyOperators_macros _ _
  exact mem_copyMacros (he ▸ h)

theorem copy_trusted {d source : Definition} (hd : d.macros.Trusted)
    (hs : source.macros.Trusted) : (d.copy source).1.macros.Trusted :=
  fun n hn => (mem_copy hn).elim (hd n) (hs n)

/-! ## Overloads -/

/-- The overload chosen is one of the group, or there is an error. -/
theorem chooseOverload_spec (group : List Macro) (arg : Node) :
    Speaks (chooseOverload group arg).1 (chooseOverload group arg).2
      ∧ ∀ m, (chooseOverload group arg).1 = some m → m ∈ group := by
  have hmem : ∀ m ∈ bestOf (Macro.score arg) group, m ∈ group := fun m => mem_bestOf
  unfold chooseOverload
  split
  · rename_i m hb
    rw [hb] at hmem
    refine ⟨by simp [Speaks], fun n hn => ?_⟩
    simp only [Option.some.injEq] at hn
    exact hn ▸ hmem m (List.mem_singleton.mpr rfl)
  · exact ⟨fun _ => rfl, by simp⟩
  · exact ⟨fun _ => rfl, by simp⟩

theorem searchGroup_spec (kind : MacroKind) {group : List Macro} (hg : group.isEmpty = false)
    (arg : Node) : Speaks (searchGroup kind group arg).1 (searchGroup kind group arg).2
      ∧ ∀ m, (searchGroup kind group arg).1 = some m → m ∈ group := by
  unfold searchGroup
  split
  · split
    · split
      · exact chooseOverload_spec group _
      · exact ⟨fun _ => rfl, by simp⟩
    · exact chooseOverload_spec group arg
  · cases group with
    | nil => simp at hg
    | cons m ms => exact ⟨by simp [Speaks], by simp⟩

/-! ## Templates -/

/-- A template under construction whose pending calls are to trusted macros. -/
def Template.Trusted (t : Template) : Prop :=
  ∀ k path m, (k, Edit.call path m) ∈ t.pending → m.Trusted

namespace Template

variable {t : Template}

theorem begin_trusted (start : Nat) (name : String) (kind : MacroKind) :
    (Template.begin start name kind).Trusted := by
  simp [Template.Trusted, Template.begin]

theorem addParam_pending (t : Template) (name : String) (default : Option Node) (position : Nat) :
    (t.addParam name default position).1.pending = t.pending := by
  unfold addParam
  split
  · rfl
  · split
    · rfl
    · split <;> rfl

/-- A template that differs from another in what it records of parameters, marks and shapes. -/
structure Records (t t' : Template) : Prop where
  start : t'.start = t.start
  params : t'.params = t.params
  calls : ∀ k path m, (k, Edit.call path m) ∈ t'.pending → (k, Edit.call path m) ∈ t.pending

theorem narrow_records (t : Template) (i : Nat) (p : Param) (shapes : ShapeSet) :
    t.Records (t.narrow i p shapes).1 := by
  unfold narrow
  simp only
  split <;> exact ⟨rfl, rfl, fun _ _ _ => id⟩

theorem Records.mark {t' : Template} (h : t.Records t') (n : Node) {e : Edit}
    (he : ∀ path m, e ≠ .call path m) : t.Records (t'.mark n e).2 := by
  refine ⟨h.start, h.params, fun k path m hm => ?_⟩
  simp only [Template.mark, List.mem_append, List.mem_singleton, Prod.mk.injEq] at hm
  rcases hm with hm | ⟨-, hm⟩
  · exact h.calls k path m hm
  · exact absurd hm.symm (he path m)

theorem resolveParam?_records {n n' : Node} {t' : Template} {rs : List Report}
    (h : t.resolveParam? n = some (n', t', rs)) :
    t.Records t' ∧ (n' = n ∨ ∃ k, n' = n.setMark (some k)) := by
  unfold Template.resolveParam? at h
  split at h
  · simp at h
  · rename_i p i _
    cases hp : n.isPrimitive with
    | true =>
      simp only [hp, if_true] at h
      split at h
      · simp only [Option.some.injEq, Prod.mk.injEq] at h
        exact ⟨h.2.1 ▸ ⟨rfl, rfl, fun _ _ _ => id⟩, .inl h.1.symm⟩
      · simp only [Option.some.injEq, Prod.mk.injEq] at h
        refine ⟨h.2.1 ▸ Records.mark ⟨rfl, rfl, fun _ _ _ => id⟩ n (by simp), .inr ⟨_, h.1.symm⟩⟩
    | false =>
      simp only [hp, Bool.false_eq_true, if_false] at h
      split at h
      · simp only [Option.some.injEq, Prod.mk.injEq] at h
        exact ⟨h.2.1 ▸ narrow_records t i p .primitive, .inl h.1.symm⟩
      · simp only [Option.some.injEq, Prod.mk.injEq] at h
        refine ⟨h.2.1 ▸ (narrow_records t i p .primitive).mark n (by simp), .inr ⟨_, h.1.symm⟩⟩

theorem Trusted.resolveParam? (ht : t.Trusted) {n n' : Node} {t' : Template} {rs : List Report}
    (h : t.resolveParam? n = some (n', t', rs)) : t'.Trusted :=
  fun k path m hm => ht k path m ((resolveParam?_records h).1.calls k path m hm)

theorem mem_deferCall {m : Macro} {n : Node} {k : Nat} {path : Path} {m' : Macro}
    (h : (k, Edit.call path m') ∈ (t.deferCall m n).2.pending) :
    (k, Edit.call path m') ∈ t.pending ∨ m' = m := by
  simp only [deferCall, Template.mark, List.mem_append, List.mem_singleton, Prod.mk.injEq,
    Edit.call.injEq] at h
  exact h.imp_right fun h => h.2.2

theorem Trusted.deferCall (ht : t.Trusted) {m : Macro} (hm : m.Trusted) (n : Node) :
    (t.deferCall m n).2.Trusted := by
  intro k path m' h
  rcases mem_deferCall h with h | rfl
  · exact ht k path m' h
  · exact hm

theorem mem_locate {pending : List (Nat × Edit)} {nodes : List (Path × Node)} {e : Edit}
    (h : e ∈ (locate pending nodes).1) : ∃ k f path, (k, f) ∈ pending ∧ e = f.moveTo path := by
  induction nodes generalizing pending with
  | nil => simp [locate] at h
  | cons node rest ih =>
    obtain ⟨path, n⟩ := node
    unfold locate at h
    split at h
    · exact ih h
    · rename_i k f hf
      obtain ⟨mark, -, hfind⟩ := Option.bind_eq_some_iff.mp hf
      rcases List.mem_cons.mp h with rfl | h
      · exact ⟨k, f, path, List.mem_of_find?_eq_some hfind, rfl⟩
      · obtain ⟨k', f', path', hmem, he⟩ := ih h
        exact ⟨k', f', path', List.mem_of_mem_eraseP hmem, he⟩

theorem moveTo_eq_call {e : Edit} {path path' : Path} {m : Macro}
    (h : .call path m = e.moveTo path') : ∃ path'', e = .call path'' m := by
  cases e with
  | value p i => simp [Edit.moveTo] at h
  | rename p i => simp [Edit.moveTo] at h
  | call p m' =>
    simp only [Edit.moveTo, Edit.call.injEq] at h
    exact ⟨p, by rw [h.2]⟩

/-- The macro that a template becomes has its body and its pending calls, and parameters of its. -/
theorem finish_spec {body : Node} {m : Macro} {rs : List Report}
    (h : t.finish body = (some m, rs)) :
    ∃ head edits, m = .template head body.clearMarks edits ∧ Macro.checkHead head = .ok ()
      ∧ (∀ p ∈ head.params, p ∈ t.params)
      ∧ ∀ path n, Edit.call path n ∈ edits → ∃ k path', (k, Edit.call path' n) ∈ t.pending := by
  unfold Template.finish at h
  split at h
  · simp at h
  · simp only at h
    split at h
    · simp at h
    · split at h
      · rename_i hc
        simp only [Prod.mk.injEq, Option.some.injEq] at h
        refine ⟨_, _, h.1.symm, ?_, fun p hp => ?_, fun path n hn => ?_⟩
        · cases hp : checkParams
              (if t.kind.isFunction = true then t.params.drop 1 else t.params) with
          | error f => simp only [hp, bind, Except.bind, reduceCtorEq] at hc
          | ok _ => simpa only [hp, bind, Except.bind] using hc
        · simp only at hp
          split at hp
          · exact List.mem_of_mem_drop hp
          · exact hp
        · obtain ⟨k, f, path', hmem, he⟩ := mem_locate hn
          obtain ⟨path'', rfl⟩ := moveTo_eq_call he
          exact ⟨k, path'', hmem⟩
      · simp at h

theorem Trusted.finish (ht : t.Trusted) {body : Node} {m : Macro} {rs : List Report}
    (h : t.finish body = (some m, rs)) : m.Trusted := by
  obtain ⟨head, edits, rfl, hc, -, hcalls⟩ := finish_spec h
  refine .template hc fun path n hn => ?_
  obtain ⟨k, path', hmem⟩ := hcalls path n hn
  exact ht k path' n hmem

end Template

end ConfigScript
