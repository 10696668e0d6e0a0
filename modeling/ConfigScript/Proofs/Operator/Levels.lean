import ConfigScript.Proofs.Operator.Keys
import ConfigScript.Proofs.Operator.Valid
import Mathlib.Data.List.Pairwise

/-! # Levels keep apart

In a table that adding, replacing and removing lead to, a spelling stands for at most one operator
in front of an operand and for at most one behind it. So it does across the levels of the table, and
a level finds an operator by its spelling if and only if it is one of its own. -/

namespace ConfigScript

/-- One spelling, on one side of an operand. -/
def Operator.Clashes (a b : Operator) : Prop :=
  a.name = b.name ∧ a.keyword = b.keyword ∧ (a.fixity = .prefixed ↔ b.fixity = .prefixed)

theorem Operator.Clashes.symm {a b : Operator} (h : a.Clashes b) : b.Clashes a :=
  ⟨h.1.symm, h.2.1.symm, h.2.2.symm⟩

/-- No two operators of a list clash. -/
def KeepApart (os : List Operator) : Prop := os.Pairwise fun a b => ¬a.Clashes b

theorem KeepApart.perm {os ps : List Operator} (h : KeepApart os) (hp : os.Perm ps) :
    KeepApart ps :=
  (hp.pairwise_iff fun hab hba => hab hba.symm).mp h

theorem KeepApart.eq {os : List Operator} (h : KeepApart os) {a b : Operator} (ha : a ∈ os)
    (hb : b ∈ os) (hab : a.Clashes b) : a = b := by
  by_contra hne
  have hsymm : Std.Symm fun a b : Operator => ¬a.Clashes b := ⟨fun _ _ h g => h g.symm⟩
  exact List.Pairwise.forall h ha hb hne hab

/-! ## Tables -/

namespace OperatorTable

variable {t : OperatorTable} {o : Operator}

/-- The tables that adding, replacing and removing operators lead to. -/
inductive Reachable : OperatorTable → Prop
  | empty : Reachable {}
  | add {t : OperatorTable} {o : Operator} (h : Reachable t) (ho : o.Valid) :
    Reachable (t.add o).1
  | replace {t : OperatorTable} {o : Operator} (h : Reachable t) (ho : o.Valid) :
    Reachable (t.replace o)
  | remove {t : OperatorTable} (h : Reachable t) (name : String) (keyword : Bool) :
    Reachable (t.remove name keyword)

theorem Reachable.valid (h : t.Reachable) : t.Valid := by
  induction h with
  | empty => exact valid_empty
  | add _ ho ih => exact ih.add ho
  | replace _ ho ih => exact ih.replace ho
  | remove _ name keyword ih => exact ih.remove name keyword

theorem keepApart_insertOrdered {os : List Operator} (h : KeepApart os)
    (ho : ∀ p ∈ os, ¬o.Clashes p) : KeepApart (insertOrdered o os) :=
  KeepApart.perm (List.pairwise_cons.mpr ⟨ho, h⟩) (perm_insertBy _ o os).symm

theorem get?_eq_none {name : String} {keyword : Bool} {fixity : Fixity}
    (h : t.get? name keyword fixity = none) {p : Operator} (hp : p ∈ t.operators)
    (hn : name = p.name) (hk : keyword = p.keyword) : p.fixity ≠ fixity := by
  intro hf
  have hnot := List.find?_eq_none.mp h p hp
  simp [Operator.spelledAs, hn, hk, hf] at hnot

theorem add_keepApart (h : KeepApart t.operators) (o : Operator) :
    KeepApart (t.add o).1.operators := by
  unfold OperatorTable.add
  cases hget : t.get? o.name o.keyword o.fixity with
  | some e => exact h
  | none =>
    cases hex : o.fixity.exclusive?.bind (t.get? o.name o.keyword) with
    | some e => exact h
    | none =>
      refine keepApart_insertOrdered h fun p hp hop => ?_
      obtain ⟨hn, hk, hside⟩ := hop
      have hne := get?_eq_none hget hp hn hk
      cases ho : o.fixity with
      | prefixed => exact hne ((hside.mp ho).trans ho.symm)
      | binary =>
        rw [ho] at hex hne hside
        have hne' := get?_eq_none hex hp hn hk
        cases hpf : p.fixity <;> simp_all
      | postfixed =>
        rw [ho] at hex hne hside
        have hne' := get?_eq_none hex hp hn hk
        cases hpf : p.fixity <;> simp_all

theorem replace_keepApart (h : KeepApart t.operators) (o : Operator) :
    KeepApart (t.replace o).operators := by
  refine keepApart_insertOrdered (h.filter _) fun p hp hop => ?_
  obtain ⟨hn, hk, hside⟩ := hop
  have hnot := (List.mem_filter.mp hp).2
  cases ho : o.fixity <;> cases hpf : p.fixity <;>
    simp_all [excludes, Operator.spelledAs, Fixity.exclusive?]

theorem Reachable.keepApart (h : t.Reachable) : KeepApart t.operators := by
  induction h with
  | empty => exact List.Pairwise.nil
  | add _ _ ih => exact add_keepApart ih _
  | replace _ _ ih => exact replace_keepApart ih _
  | remove _ _ _ ih => exact ih.filter _

end OperatorTable

/-! ## Levels -/

/-- The operators of a level are of its fixity and associativity. -/
def Level.Uniform (l : Level) : Prop :=
  ∀ o ∈ l.operators, o.fixity = l.fixity ∧ o.isRightAssociative = l.rightAssociative

theorem gatherLevels_flatMap (os : List Operator) :
    (gatherLevels os).flatMap Level.operators = os := by
  induction os with
  | nil => rfl
  | cons o os ih =>
    rw [gatherLevels]
    cases h : gatherLevels os with
    | nil =>
      rw [h] at ih
      simp [Level.single, ← ih]
    | cons l ls =>
      rw [h] at ih
      simp only
      split
      · rw [List.flatMap_cons, List.cons_append, ← ih, List.flatMap_cons]
      · rw [List.flatMap_cons, ih]
        rfl

theorem gatherLevels_uniform (os : List Operator) : ∀ l ∈ gatherLevels os, l.Uniform := by
  intro l hl o ho
  obtain ⟨-, hfixity, hright⟩ := bindingKey_inj.mp ((gatherLevels_gathered os l hl).alike o ho)
  exact ⟨hfixity, hright⟩

/-- Levels of operators no two of which clash. -/
structure Layered (ls : List Level) : Prop where
  uniform : ∀ l ∈ ls, l.Uniform
  apart : KeepApart (ls.flatMap Level.operators)

theorem OperatorTable.perm_inBindingOrder (t : OperatorTable) :
    t.inBindingOrder.Perm t.operators := by
  unfold OperatorTable.inBindingOrder
  induction t.operators with
  | nil => exact .refl _
  | cons o os ih => exact (perm_insertBy _ o _).trans (ih.cons o)

theorem OperatorTable.Reachable.layered {t : OperatorTable} (h : t.Reachable) :
    Layered t.levels := by
  refine ⟨gatherLevels_uniform _, ?_⟩
  rw [OperatorTable.levels, gatherLevels_flatMap]
  exact h.keepApart.perm t.perm_inBindingOrder.symm

namespace Layered

variable {l l' : Level} {ls : List Level} {o : Operator}

theorem tail (h : Layered (l :: ls)) : Layered ls :=
  ⟨fun m hm => h.uniform m (List.mem_cons_of_mem l hm), by
    have ha := h.apart
    rw [List.flatMap_cons] at ha
    exact (List.pairwise_append.mp ha).2.1⟩

theorem mem_flatMap (hl : l ∈ ls) (ho : o ∈ l.operators) : o ∈ ls.flatMap Level.operators :=
  List.mem_flatMap.mpr ⟨l, hl, ho⟩

theorem get?_spec {name : String} {keyword : Bool} (h : l.get? name keyword = some o) :
    o ∈ l.operators ∧ o.name = name ∧ o.keyword = keyword := by
  have hspelled := List.find?_some h
  simp only [Operator.spelledAs, Bool.and_eq_true, beq_iff_eq] at hspelled
  exact ⟨List.mem_of_find?_eq_some h, hspelled⟩

/-- Operators of levels of one side clash if they are spelled the same way. -/
theorem clashes (h : Layered ls) {p : Operator} (hl : l ∈ ls) (hl' : l' ∈ ls)
    (hside : l.fixity = .prefixed ↔ l'.fixity = .prefixed) (ho : o ∈ l.operators)
    (hp : p ∈ l'.operators) (hn : o.name = p.name) (hk : o.keyword = p.keyword) :
    o.Clashes p := by
  refine ⟨hn, hk, ?_⟩
  rw [(h.uniform l hl o ho).1, (h.uniform l' hl' p hp).1]
  exact hside

theorem get?_self (h : Layered ls) (hl : l ∈ ls) (ho : o ∈ l.operators) :
    l.get? o.name o.keyword = some o := by
  cases hget : l.get? o.name o.keyword with
  | none =>
    have hnot := List.find?_eq_none.mp hget o ho
    simp [Operator.spelledAs] at hnot
  | some p =>
    obtain ⟨hp, hn, hk⟩ := get?_spec hget
    have hpo := h.clashes hl hl Iff.rfl hp ho hn hk
    rw [h.apart.eq (mem_flatMap hl hp) (mem_flatMap hl ho) hpo]

theorem not_clashes (h : Layered (l :: ls)) {p : Operator} (hl' : l' ∈ ls)
    (ho : o ∈ l.operators) (hp : p ∈ l'.operators) : ¬o.Clashes p := by
  have ha := h.apart
  rw [List.flatMap_cons] at ha
  exact (List.pairwise_append.mp ha).2.2 o ho p (mem_flatMap hl' hp)

theorem get?_above (h : Layered (l :: ls)) (hl' : l' ∈ ls)
    (hside : l.fixity = .prefixed ↔ l'.fixity = .prefixed) (ho : o ∈ l.operators) :
    l'.get? o.name o.keyword = none := by
  cases hget : l'.get? o.name o.keyword with
  | none => rfl
  | some p =>
    obtain ⟨hp, hn, hk⟩ := get?_spec hget
    have hop := h.clashes List.mem_cons_self (List.mem_cons_of_mem l hl') hside ho hp hn.symm
      hk.symm
    exact absurd hop (h.not_clashes hl' ho hp)

theorem get?_below (h : Layered (l :: ls)) (hl' : l' ∈ ls)
    (hside : l.fixity = .prefixed ↔ l'.fixity = .prefixed) (ho : o ∈ l'.operators) :
    l.get? o.name o.keyword = none := by
  cases hget : l.get? o.name o.keyword with
  | none => rfl
  | some p =>
    obtain ⟨hp, hn, hk⟩ := get?_spec hget
    have hpo := h.clashes List.mem_cons_self (List.mem_cons_of_mem l hl') hside hp ho hn hk
    exact absurd hpo (h.not_clashes hl' hp ho)

end Layered

end ConfigScript
