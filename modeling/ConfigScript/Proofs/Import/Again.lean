import ConfigScript.Proofs.Macro.Known
import ConfigScript.Proofs.Macro.Registration
import ConfigScript.Proofs.Node.Equality
import ConfigScript.Proofs.Operator.Slots

/-! # Importing again

What an import copies takes the place of what it copied before, or is refused as it was before. So
copying a definition a second time leaves everything as the first time did, the order of overloads
included. -/

namespace ConfigScript

/-! ## Macros that are defined again -/

/-- The default values of a macro are trees with distinct keys. -/
def Macro.DefaultsKeyed (m : Macro) : Prop := ∀ p ∈ m.params, ∀ v ∈ p.default, v.Keyed

theorem Node.same_self {n : Node} (h : n.Keyed) : Node.same n n = true :=
  Node.same_of_withoutInfo n n h rfl

theorem all_zip_self {f : Param × Param → Bool} {ps : List Param}
    (h : ∀ p ∈ ps, f (p, p) = true) : (ps.zip ps).all f = true := by
  induction ps with
  | nil => rfl
  | cons p ps ih =>
    obtain ⟨hp, hps⟩ := List.forall_mem_cons.mp h
    rw [List.zip_cons_cons, List.all_cons, hp, ih hps, Bool.and_self]

theorem Macro.DefaultsKeyed.overwrites_self {m : Macro} (h : m.DefaultsKeyed) :
    m.overwrites m = true := by
  unfold Macro.overwrites
  split
  · rw [beq_self_eq_true, Bool.true_and]
    refine all_zip_self fun p hp => ?_
    simp only [beq_self_eq_true, Bool.true_and]
    cases hd : p.default with
    | none => rfl
    | some v => exact Node.same_self (h p hp v hd)
  · simp only [beq_self_eq_true, Bool.and_self]

namespace MacroRegistry

theorem drops_self {m : Macro} (h : m.DefaultsKeyed) : (Change.add m).drops m = true := by
  simp only [Change.drops, beq_self_eq_true, h.overwrites_self, Bool.or_true, Bool.and_self]

/-- Registries that sequences of changes lead to are the same if these keep the same macros. -/
theorem after_eq_of_kept {cs ds : List Change} (h : kept cs = kept ds) : after cs = after ds := by
  have hmacros : (after cs).macros = (after ds).macros := by
    refine (ordered_after cs).eq_of_groups (ordered_after ds) fun s => ?_
    have hgroups : (after cs).group s = (after ds).group s := by rw [group_after, group_after, h]
    exact hgroups
  exact congrArg MacroRegistry.mk hmacros

theorem after_again {ms : List Macro} (h : ∀ m ∈ ms, m.DefaultsKeyed) (cs : List Change) :
    after (cs ++ ms.map .add ++ ms.map .add) = after (cs ++ ms.map .add) := by
  refine after_eq_of_kept (kept_append_again (fun m hm => ?_) cs)
  obtain ⟨n, hn, hnm⟩ := List.mem_map.mp (mem_of_mem_kept hm)
  have hmem : m ∈ ms := Change.add.inj hnm ▸ hn
  exact List.any_eq_true.mpr ⟨.add m, List.mem_map.mpr ⟨m, hmem, rfl⟩, drops_self (h m hmem)⟩

end MacroRegistry

/-! ## Operators that are added again -/

namespace OperatorTable

variable {t : OperatorTable} {o : Operator}

/-- Adding changes a table only if nothing in it stands against the operator. -/
theorem add_fst (t : OperatorTable) (o : Operator) :
    (t.add o).1 = if t.operators.any (excludes o) then t else ⟨insertOrdered o t.operators⟩ := by
  have hfound {s : Slot} {e : Operator} (he : t.at? s = some e)
      (hs : s = o.slot ∨ s ∈ o.slot.exclusive?) : t.operators.any (excludes o) = true := by
    obtain ⟨hmem, rfl⟩ := mem_of_at? he
    exact List.any_eq_true.mpr ⟨e, hmem, excludes_iff.mpr hs⟩
  unfold OperatorTable.add
  split
  · rename_i e he
    rw [if_pos (hfound (s := o.slot) he (.inl rfl))]
  · rename_i hfree
    split
    · rename_i e he
      obtain ⟨fixity, hf, he⟩ := Option.bind_eq_some_iff.mp he
      have hx : (⟨o.name, o.keyword, fixity⟩ : Slot) ∈ o.slot.exclusive? := by
        simp [Slot.exclusive?, Operator.slot, hf]
      rw [if_pos (hfound (s := ⟨o.name, o.keyword, fixity⟩) he (.inr hx))]
    · rename_i hopen
      rw [if_neg]
      rw [List.any_eq_true]
      rintro ⟨e, hmem, he⟩
      simp only [excludes, Operator.spelledAs, Bool.and_eq_true, Bool.or_eq_true, beq_iff_eq] at he
      obtain ⟨⟨hname, hkeyword⟩, hf | hf⟩ := he
      · exact get?_eq_none hfree hmem hname.symm hkeyword.symm hf
      · rw [← hf] at hopen
        exact get?_eq_none hopen hmem hname.symm hkeyword.symm rfl

/-- Something in the table is in the slot of the operator, or in the one that this excludes. -/
def Against (t : OperatorTable) (o : Operator) : Prop := t.operators.any (excludes o) = true

theorem Against.add_eq (h : t.Against o) : (t.add o).1 = t := by
  have hsome : t.operators.any (excludes o) = true := h
  rw [add_fst, if_pos hsome]

theorem mem_add_of_mem {p : Operator} (h : p ∈ t.operators) : p ∈ (t.add o).1.operators := by
  rw [add_fst]
  split
  · exact h
  · exact (perm_insertBy _ o _).mem_iff.mpr (List.mem_cons_of_mem o h)

theorem Against.add (h : t.Against o) (p : Operator) : (t.add p).1.Against o := by
  obtain ⟨e, he, hexcludes⟩ := List.any_eq_true.mp h
  exact List.any_eq_true.mpr ⟨e, mem_add_of_mem he, hexcludes⟩

theorem against_add (t : OperatorTable) (o : Operator) : (t.add o).1.Against o := by
  by_cases h : t.Against o
  · rw [h.add_eq]
    exact h
  · have hnone : ¬t.operators.any (excludes o) = true := h
    rw [add_fst, if_neg hnone]
    refine List.any_eq_true.mpr ⟨o, ?_, excludes_iff.mpr (.inl rfl)⟩
    exact (perm_insertBy _ o _).mem_iff.mpr List.mem_cons_self

/-- Adds operators one after the other. -/
def addAll (t : OperatorTable) (os : List Operator) : OperatorTable :=
  os.foldl (fun t o => (t.add o).1) t

theorem Against.addAll (h : t.Against o) (os : List Operator) : (t.addAll os).Against o := by
  induction os generalizing t with
  | nil => exact h
  | cons p ps ih => exact ih (h.add p)

theorem against_addAll {os : List Operator} (ho : o ∈ os) : (t.addAll os).Against o := by
  induction os generalizing t with
  | nil => simp at ho
  | cons p ps ih =>
    rcases List.mem_cons.mp ho with rfl | ho
    · exact (against_add t o).addAll ps
    · exact ih ho

theorem addAll_of_against {os : List Operator} (h : ∀ o ∈ os, t.Against o) : t.addAll os = t := by
  induction os with
  | nil => rfl
  | cons p ps ih =>
    obtain ⟨hp, hps⟩ := List.forall_mem_cons.mp h
    rw [addAll, List.foldl_cons, hp.add_eq]
    exact ih hps

theorem addAll_again (t : OperatorTable) (os : List Operator) :
    (t.addAll os).addAll os = t.addAll os :=
  addAll_of_against fun _ ho => against_addAll ho

end OperatorTable

/-! ## Definitions -/

namespace Definition

variable {d source : Definition}

theorem eq_of_parts {d e : Definition} (hm : d.macros = e.macros) (ho : d.operators = e.operators) :
    d = e := by
  cases d
  cases e
  rw [Definition.mk.injEq]
  exact ⟨hm, ho⟩

/-- The definitions that changes to the registry of macros and to the table of operators lead to.
The default values of macros are trees with distinct keys, and operators have passed their
checks. -/
inductive Reachable : Definition → Prop
  | empty : Reachable {}
  | addMacro {d : Definition} (h : Reachable d) {m : Macro} (hm : m.DefaultsKeyed) :
    Reachable { d with macros := (d.macros.add m).1 }
  | removeMacros {d : Definition} (h : Reachable d) (s : Signature) :
    Reachable { d with macros := d.macros.remove s }
  | clearMacros {d : Definition} (h : Reachable d) : Reachable { d with macros := {} }
  | operators {d : Definition} (h : Reachable d) {c : OperatorTable.Change} (hc : c.Valid) :
    Reachable { d with operators := c.apply d.operators }

theorem Reachable.macros (h : d.Reachable) : ∃ cs, d.macros = MacroRegistry.after cs
    ∧ ∀ m, .add m ∈ cs → m.DefaultsKeyed := by
  induction h with
  | empty => exact ⟨[], rfl, by simp⟩
  | @addMacro d _ m hm ih =>
    obtain ⟨cs, hcs, hkeyed⟩ := ih
    refine ⟨cs ++ [.add m], ?_, ?_⟩
    · rw [MacroRegistry.after_append_singleton, ← hcs]
      rfl
    · simp only [List.mem_append, List.mem_singleton, MacroRegistry.Change.add.injEq]
      rintro n (hn | rfl)
      · exact hkeyed n hn
      · exact hm
  | @removeMacros d _ s ih =>
    obtain ⟨cs, hcs, hkeyed⟩ := ih
    refine ⟨cs ++ [.remove s], ?_, by simpa using hkeyed⟩
    rw [MacroRegistry.after_append_singleton, ← hcs]
    rfl
  | clearMacros _ _ => exact ⟨[], rfl, by simp⟩
  | operators _ _ ih => exact ih

theorem Reachable.defaultsKeyed (h : d.Reachable) : ∀ m ∈ d.macros.macros, m.DefaultsKeyed := by
  obtain ⟨cs, hcs, hkeyed⟩ := h.macros
  intro m hm
  rw [hcs] at hm
  have hgroup : m ∈ (MacroRegistry.after cs).group m.signature :=
    List.mem_filter.mpr ⟨hm, beq_self_eq_true _⟩
  exact hkeyed m (MacroRegistry.mem_of_mem_group hgroup)

theorem copyMacros_macros (d : Definition) (ms : List Macro) :
    (d.copyMacros ms).1.macros = (ms.map .add).foldl MacroRegistry.Change.apply d.macros := by
  induction ms generalizing d with
  | nil => rfl
  | cons m ms ih => exact ih _

theorem copyOperators_operators (d : Definition) (os : List Operator) :
    (d.copyOperators os).1.operators = d.operators.addAll os := by
  induction os generalizing d with
  | nil => rfl
  | cons o os ih => exact ih _

theorem copy_macros (d source : Definition) :
    (d.copy source).1.macros
      = (source.macros.macros.map .add).foldl MacroRegistry.Change.apply d.macros :=
  (copyOperators_macros _ _).trans (copyMacros_macros d _)

theorem copy_operators (d source : Definition) :
    (d.copy source).1.operators = d.operators.addAll source.operators.operators := by
  change ((d.copyMacros _).1.copyOperators _).1.operators = _
  rw [copyOperators_operators, copyMacros_operators]

/-- Copying a definition into another one a second time changes nothing. -/
theorem copy_again (hd : d.Reachable) (hs : source.Reachable) :
    ((d.copy source).1.copy source).1 = (d.copy source).1 := by
  obtain ⟨cs, hcs, -⟩ := hd.macros
  have hmacros : ((d.copy source).1.copy source).1.macros = (d.copy source).1.macros := by
    have hagain := MacroRegistry.after_again hs.defaultsKeyed cs
    simp only [MacroRegistry.after, List.foldl_append] at hagain
    rw [copy_macros, copy_macros, hcs]
    exact hagain
  have hoperators : ((d.copy source).1.copy source).1.operators = (d.copy source).1.operators := by
    rw [copy_operators, copy_operators, OperatorTable.addAll_again]
  exact eq_of_parts hmacros hoperators

namespace Sample

/-- A macro that stands for a word. -/
def standing (name : String) (kind : MacroKind) (params : List Param) (word : String) : Macro :=
  .template ⟨⟨name, kind⟩, params, none⟩ (.value word) []

/-- Overloads of an object macro, and a binary operator. -/
def target : Definition :=
  { macros := MacroRegistry.after [.add (standing "m" .object [⟨"a", some (.value "1")⟩] "first"),
      .add (standing "m" .object [⟨"b", none⟩] "second")]
    operators := OperatorTable.after [.add OperatorTable.Sample.joined] }

/-- The first overload in another wording and one more, and a postfix operator of the same
spelling. -/
def imported : Definition :=
  { macros := MacroRegistry.after [.add (standing "m" .object [⟨"c", none⟩] "third"),
      .add (standing "m" .object [⟨"a", some (.value "1")⟩] "fourth")]
    operators := OperatorTable.after [.add OperatorTable.Sample.closing,
      .add OperatorTable.Sample.signed] }

theorem defaultsKeyed_standing {name : String} {kind : MacroKind} {params : List Param}
    {word : String} (h : ∀ p ∈ params, ∀ v ∈ p.default, v.Keyed) :
    (standing name kind params word).DefaultsKeyed := h

theorem reachable_target : target.Reachable := by
  refine .operators (c := .add OperatorTable.Sample.joined)
    (.addMacro (.addMacro .empty (defaultsKeyed_standing ?_)) (defaultsKeyed_standing ?_))
    OperatorTable.Sample.valid_joined
  · simp [Node.value, Node.Keyed]
  · simp

theorem reachable_imported : imported.Reachable := by
  refine .operators (c := .add OperatorTable.Sample.signed)
    (.operators (c := .add OperatorTable.Sample.closing)
      (.addMacro (.addMacro .empty (defaultsKeyed_standing ?_)) (defaultsKeyed_standing ?_))
      OperatorTable.Sample.valid_closing)
    OperatorTable.Sample.valid_signed
  · simp
  · simp [Node.value, Node.Keyed]

end Sample

/-- An overload is replaced, one is new, and an operator is refused: the first time and the
second. -/
theorem copy_again_replaced :
    let copied := (Sample.target.copy Sample.imported).1
    Sample.target.Reachable ∧ Sample.imported.Reachable
      ∧ copied.macros.macros.map Macro.text = ["macro m{b} : second",
        "macro m{c} : third", "macro m{a = 1} : fourth"]
      ∧ copied.operators.operators = [OperatorTable.Sample.joined, OperatorTable.Sample.signed]
      ∧ (copied.copy Sample.imported).1 = copied := by
  intro copied
  exact ⟨Sample.reachable_target, Sample.reachable_imported, by decide +kernel, by decide +kernel,
    copy_again Sample.reachable_target Sample.reachable_imported⟩

end Definition

end ConfigScript
