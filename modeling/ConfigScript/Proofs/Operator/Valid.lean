import ConfigScript.Operator.Table

/-! # Checked operators

An operator that passed the checks of its creation has a spelling. A table that holds only such
operators still does so after each of its operations. -/

namespace ConfigScript

/-- An operator that passes the checks of its creation. -/
def Operator.Valid (o : Operator) : Prop :=
  ∃ priority, Operator.create o.name o.keyword o.fixity o.substitute o.property priority = .ok o

/-- A table that holds only checked operators. -/
def OperatorTable.Valid (t : OperatorTable) : Prop := ∀ o ∈ t.operators, o.Valid

/-- A table in which no operator is spelled with nothing. -/
def OperatorTable.Spelled (t : OperatorTable) : Prop := ∀ o ∈ t.operators, o.name.toList ≠ []

theorem Operator.Valid.name_ne_nil {o : Operator} (h : o.Valid) : o.name.toList ≠ [] := by
  obtain ⟨priority, hc⟩ := h
  intro he
  have hn : o.name.isEmpty = true := by simp [String.toList_eq_nil_iff.mp he]
  simp [Operator.create, hn] at hc

theorem OperatorTable.longestMatch?_spelling {t : OperatorTable} {cs : List Char} {n : Nat}
    (h : t.longestMatch? cs = some n) :
    ∃ o ∈ t.operators, o.name.toList.length = n ∧ o.name.toList <+: cs := by
  obtain ⟨o, ho, hn⟩ := List.mem_map.mp (List.max?_mem h)
  simp only [List.mem_filter, Bool.and_eq_true, List.isPrefixOf_iff_prefix] at ho
  exact ⟨o, ho.1, hn, ho.2.2⟩

theorem OperatorTable.longestMatch?_le {t : OperatorTable} {cs : List Char} {n : Nat}
    (h : t.longestMatch? cs = some n) : n ≤ cs.length := by
  obtain ⟨o, -, rfl, hp⟩ := longestMatch?_spelling h
  exact hp.length_le

theorem OperatorTable.Valid.spelled {t : OperatorTable} (ht : t.Valid) : t.Spelled :=
  fun o ho => (ht o ho).name_ne_nil

theorem OperatorTable.Spelled.longestMatch?_pos {t : OperatorTable} (ht : t.Spelled)
    {cs : List Char} {n : Nat} (h : t.longestMatch? cs = some n) : 0 < n := by
  obtain ⟨o, ho, rfl, -⟩ := longestMatch?_spelling h
  exact List.length_pos_iff.mpr (ht o ho)

theorem Operator.create_valid {name : String} {keyword : Bool} {fixity : Fixity}
    {substitute : Option String} {property : OperatorProperty} {priority : Option Number}
    {o : Operator} (h : Operator.create name keyword fixity substitute property priority = .ok o) :
    o.Valid := by
  refine ⟨priority, ?_⟩
  have ho := h
  unfold Operator.create at ho
  split at ho
  · simp at ho
  · split at ho
    · simp at ho
    · split at ho
      · simp at ho
      · simp only [Except.ok.injEq] at ho
        subst ho
        exact h

namespace OperatorTable

variable {t : OperatorTable} {o : Operator}

theorem valid_empty : OperatorTable.Valid {} := by simp [Valid]

theorem perm_insertBy (before : Operator → Operator → Bool) (o : Operator) (os : List Operator) :
    (insertBy before o os).Perm (o :: os) := by
  induction os with
  | nil => exact .refl _
  | cons p ps ih =>
    rw [insertBy]
    split
    · exact .refl _
    · exact (ih.cons p).trans (.swap o p ps)

/-- An insertion keeps a relation of earlier to later operators, if the new one stands in it to all
that it is put before and those that it is put behind stand in it to the new one. -/
theorem pairwise_insertBy {before : Operator → Operator → Bool} {r : Operator → Operator → Prop}
    (hfirst : ∀ p, before o p = true → r o p) (hpast : ∀ p q, before o p = true → r p q → r o q)
    (hbehind : ∀ p, before o p = false → r p o) {os : List Operator} (h : os.Pairwise r) :
    (insertBy before o os).Pairwise r := by
  induction os with
  | nil => exact List.pairwise_singleton _ _
  | cons p ps ih =>
    obtain ⟨hp, hps⟩ := List.pairwise_cons.mp h
    rw [insertBy]
    split
    · rename_i hop
      refine List.pairwise_cons.mpr ⟨fun q hq => ?_, h⟩
      rcases List.mem_cons.mp hq with rfl | hq
      · exact hfirst q hop
      · exact hpast p q hop (hp q hq)
    · rename_i hop
      refine List.pairwise_cons.mpr ⟨fun q hq => ?_, ih hps⟩
      rcases List.mem_cons.mp ((perm_insertBy before o ps).mem_iff.mp hq) with rfl | hq
      · exact hbehind p (Bool.eq_false_iff.mpr hop)
      · exact hp q hq

theorem mem_insertOrdered {p : Operator} {os : List Operator} (h : p ∈ insertOrdered o os) :
    p = o ∨ p ∈ os :=
  List.mem_cons.mp ((perm_insertBy _ o os).mem_iff.mp h)

theorem Valid.add (ht : t.Valid) (ho : o.Valid) : (t.add o).1.Valid := by
  unfold OperatorTable.add
  split
  · exact ht
  · split
    · exact ht
    · intro p hp
      rcases mem_insertOrdered hp with rfl | hp
      · exact ho
      · exact ht p hp

theorem Valid.replace (ht : t.Valid) (ho : o.Valid) : (t.replace o).Valid := by
  intro p hp
  rcases mem_insertOrdered hp with rfl | hp
  · exact ho
  · exact ht p ((List.mem_filter.mp hp).1)

theorem Valid.remove (ht : t.Valid) (name : String) (keyword : Bool) :
    (t.remove name keyword).Valid :=
  fun p hp => ht p ((List.mem_filter.mp hp).1)

end OperatorTable

end ConfigScript
