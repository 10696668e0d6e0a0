import ConfigScript.Proofs.Operator.Levels

/-! # Listing order

The operators of a table are in listing order after each of its operations. A table is built again
by adding its operators in that order: each of them comes last, and none of those before it stands
against it. -/

namespace ConfigScript

theorem Operator.precedes_asymm {a b : Operator} (h : a.precedes b = true) :
    b.precedes a = false := by
  unfold Operator.precedes at *
  grind [String.lt_asymm]

theorem Operator.precedes_trans {a b c : Operator} (h : a.precedes b = true)
    (g : b.precedes c = true) : a.precedes c = true := by
  unfold Operator.precedes at *
  grind [String.lt_trans]

/-- No operator comes before one that it is listed after. -/
def Listed (os : List Operator) : Prop := os.Pairwise fun a b => b.precedes a = false

namespace OperatorTable

variable {t : OperatorTable} {o : Operator} {os : List Operator}

theorem listed_insertOrdered (h : Listed os) (o : Operator) : Listed (insertOrdered o os) := by
  refine pairwise_insertBy (fun p => Operator.precedes_asymm) (fun p q hop hpq => ?_)
    (fun p => id) h
  rw [← Bool.not_eq_true]
  intro hqo
  exact Bool.eq_false_iff.mp hpq (Operator.precedes_trans hqo hop)

theorem Reachable.listed (h : t.Reachable) : Listed t.operators := by
  induction h with
  | empty => exact List.Pairwise.nil
  | @add t o _ _ ih =>
    unfold OperatorTable.add
    split
    · exact ih
    · split
      · exact ih
      · exact listed_insertOrdered ih o
  | replace _ _ ih => exact listed_insertOrdered (ih.filter _) _
  | remove _ _ _ ih => exact ih.filter _

theorem insertBy_last {before : Operator → Operator → Bool} (h : ∀ p ∈ os, before o p = false) :
    insertBy before o os = os ++ [o] := by
  induction os with
  | nil => rfl
  | cons p ps ih =>
    rw [insertBy, if_neg (Bool.eq_false_iff.mp (h p List.mem_cons_self)),
      ih fun q hq => h q (List.mem_cons_of_mem p hq), List.cons_append]

theorem get?_eq_none_of_apart {fixity : Fixity} (h : ∀ p ∈ os, ¬p.Clashes o)
    (hf : fixity = .prefixed ↔ o.fixity = .prefixed) :
    get? ⟨os⟩ o.name o.keyword fixity = none := by
  refine List.find?_eq_none.mpr fun p hp hfound => h p hp ?_
  simp only [Operator.spelledAs, Bool.and_eq_true, beq_iff_eq] at hfound
  obtain ⟨⟨hname, hkeyword⟩, hfixity⟩ := hfound
  exact ⟨hname, hkeyword, by rw [hfixity, hf]⟩

theorem add_last (ha : KeepApart (os ++ [o])) (hl : Listed (os ++ [o])) :
    add ⟨os⟩ o = (⟨os ++ [o]⟩, .added) := by
  have hapart : ∀ p ∈ os, ¬p.Clashes o :=
    fun p hp => (List.pairwise_append.mp ha).2.2 p hp o (List.mem_singleton_self o)
  have horder : ∀ p ∈ os, o.precedes p = false :=
    fun p hp => (List.pairwise_append.mp hl).2.2 p hp o (List.mem_singleton_self o)
  have hsame : get? ⟨os⟩ o.name o.keyword o.fixity = none := get?_eq_none_of_apart hapart .rfl
  have hother : o.fixity.exclusive?.bind (get? ⟨os⟩ o.name o.keyword) = none := by
    cases hf : o.fixity with
    | binary => exact get?_eq_none_of_apart hapart (by simp [hf])
    | prefixed => rfl
    | postfixed => exact get?_eq_none_of_apart hapart (by simp [hf])
  simp only [add, hsame, hother, insertOrdered, insertBy_last horder]

end OperatorTable

end ConfigScript
