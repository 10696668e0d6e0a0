import ConfigScript.Parser.Statement
import ConfigScript.Proofs.Operator.Valid

/-! # What a table offers

A table offers an operator if it has an equal one under the same spelling and fixity. Adding and
withdrawing keep up what does not stand against them, and copying a definition leaves out just the
operators that something stands against, with a warning about each. -/

namespace ConfigScript

/-- Equal definitions; priorities are compared as numbers, and a definition equals itself. -/
def Operator.Agrees (a b : Operator) : Prop := a = b ∨ a.same b = true

namespace OperatorTable

variable {t : OperatorTable} {o p : Operator}

/-- There is an equal definition under the spelling and fixity of an operator. -/
def Offers (t : OperatorTable) (o : Operator) : Prop :=
  ∃ e, t.get? o.name o.keyword o.fixity = some e ∧ e.Agrees o

/-- The operators among some that are left out when these are added one after the other. -/
def refused (t : OperatorTable) : List Operator → List Operator
  | [] => []
  | o :: os => (if (t.add o).2.isAccepted then [] else [o]) ++ (t.add o).1.refused os

/-! ## Looking up -/

theorem find?_insertBy_of_neg {before : Operator → Operator → Bool} {q : Operator → Bool}
    (h : q o = false) (os : List Operator) : (insertBy before o os).find? q = os.find? q := by
  induction os with
  | nil => simp [insertBy, h]
  | cons e es ih =>
    rw [insertBy]
    split
    · rw [List.find?_cons_of_neg (by simp [h])]
    · simp only [List.find?_cons, ih]

theorem find?_insertBy_of_none {before : Operator → Operator → Bool} {q : Operator → Bool}
    (h : q o = true) {os : List Operator} (hn : os.find? q = none) :
    (insertBy before o os).find? q = some o := by
  induction os with
  | nil => simp [insertBy, h]
  | cons e es ih =>
    rw [insertBy]
    split
    · exact List.find?_cons_of_pos h
    · have he : q e = false := by simpa using (List.find?_eq_none.mp hn) e List.mem_cons_self
      rw [List.find?_cons_of_neg (by simp [he])] at hn ⊢
      exact ih hn

theorem key_ne {e : Operator} (hn : t.get? o.name o.keyword o.fixity = none)
    (he : t.get? p.name p.keyword p.fixity = some e) :
    (o.spelledAs p.name p.keyword && o.fixity == p.fixity) = false := by
  rw [← Bool.not_eq_true]
  intro hk
  simp only [Operator.spelledAs, Bool.and_eq_true, beq_iff_eq] at hk
  obtain ⟨⟨hname, hkeyword⟩, hfixity⟩ := hk
  rw [hname, hkeyword, hfixity, he] at hn
  simp at hn

theorem get?_filter {keep : Operator → Bool} {name : String} {keyword : Bool} {fixity : Fixity}
    (h : ∀ e : Operator, e.name = name → e.keyword = keyword → e.fixity = fixity → keep e = true) :
    get? ⟨t.operators.filter keep⟩ name keyword fixity = t.get? name keyword fixity := by
  simp only [get?, List.find?_filter]
  congr 1
  funext e
  cases hk : e.spelledAs name keyword && e.fixity == fixity with
  | false => simp
  | true =>
    simp only [Operator.spelledAs, Bool.and_eq_true, beq_iff_eq] at hk
    simp [h e hk.1.1 hk.1.2 hk.2]

/-! ## Adding -/

theorem mem_add (h : p ∈ (t.add o).1.operators) : p = o ∨ p ∈ t.operators := by
  unfold OperatorTable.add at h
  split at h
  · exact .inr h
  · split at h
    · exact .inr h
    · exact mem_insertOrdered h

theorem Offers.add (h : t.Offers p) (o : Operator) : (t.add o).1.Offers p := by
  obtain ⟨e, he, hagrees⟩ := h
  unfold OperatorTable.add
  split
  · exact ⟨e, he, hagrees⟩
  · rename_i hn
    split
    · exact ⟨e, he, hagrees⟩
    · refine ⟨e, ?_, hagrees⟩
      rw [get?, insertOrdered, find?_insertBy_of_neg (key_ne hn he)]
      exact he

theorem self_key (o : Operator) :
    (o.spelledAs o.name o.keyword && o.fixity == o.fixity) = true := by
  simp [Operator.spelledAs]

theorem offers_add (h : (t.add o).2.isAccepted = true) : (t.add o).1.Offers o := by
  unfold OperatorTable.add at h ⊢
  split
  · rename_i e he
    refine ⟨e, he, .inr ?_⟩
    simp only [he] at h
    split at h
    · assumption
    · simp [Registration.isAccepted] at h
  · rename_i hn
    split
    · rename_i e he
      simp [hn, he, Registration.isAccepted] at h
    · refine ⟨o, ?_, .inl rfl⟩
      rw [get?, insertOrdered, find?_insertBy_of_none (self_key o) hn]

/-! ## Replacing and withdrawing -/

theorem mem_replace (h : p ∈ (t.replace o).operators) :
    p = o ∨ (p ∈ t.operators ∧ excludes o p = false) := by
  refine (mem_insertOrdered h).imp_right fun hp => ?_
  simpa using List.mem_filter.mp hp

theorem Offers.replace (h : t.Offers p) (hp : excludes o p = false) : (t.replace o).Offers p := by
  obtain ⟨e, he, hagrees⟩ := h
  have hkey : (o.spelledAs p.name p.keyword && o.fixity == p.fixity) = false := by
    rw [← Bool.not_eq_true]
    intro hk
    simp only [Operator.spelledAs, Bool.and_eq_true, beq_iff_eq] at hk
    simp [excludes, Operator.spelledAs, hk] at hp
  refine ⟨e, ?_, hagrees⟩
  rw [OperatorTable.replace, get?, insertOrdered, find?_insertBy_of_neg hkey]
  refine (get?_filter fun e hname hkeyword hfixity => ?_).trans he
  have hexcludes : excludes o e = excludes o p := by
    simp only [excludes, Operator.spelledAs, hname, hkeyword, hfixity]
  rw [hexcludes, hp, Bool.not_false]

theorem offers_replace (t : OperatorTable) (o : Operator) : (t.replace o).Offers o := by
  refine ⟨o, ?_, .inl rfl⟩
  rw [OperatorTable.replace, get?, insertOrdered, find?_insertBy_of_none (self_key o)]
  refine List.find?_eq_none.mpr fun e he => ?_
  have hexcludes := (List.mem_filter.mp he).2
  simp only [excludes, Bool.not_eq_true', Bool.and_eq_false_iff, Bool.or_eq_false_iff] at hexcludes
  rcases hexcludes with hs | hf
  · simp [hs]
  · simp [hf.1]

theorem Offers.remove (h : t.Offers p) {name : String} {keyword : Bool}
    (hp : p.spelledAs name keyword = false) : (t.remove name keyword).Offers p := by
  obtain ⟨e, he, hagrees⟩ := h
  refine ⟨e, (get?_filter fun e hname hkeyword hfixity => ?_).trans he, hagrees⟩
  have hspelled : e.spelledAs name keyword = p.spelledAs name keyword := by
    simp only [Operator.spelledAs, hname, hkeyword]
  rw [hspelled, hp, Bool.not_false]

theorem mem_remove {name : String} {keyword : Bool} (h : p ∈ (t.remove name keyword).operators) :
    p ∈ t.operators ∧ p.spelledAs name keyword = false := by
  simpa using List.mem_filter.mp h

end OperatorTable

/-! ## Copying a definition -/

namespace Definition

open OperatorTable

variable {d : Definition} {o : Operator}

theorem copyMacros_operators (d : Definition) (ms : List Macro) :
    (d.copyMacros ms).1.operators = d.operators := by
  induction ms generalizing d with
  | nil => rfl
  | cons m ms ih => exact ih _

theorem offers_copyOperators (h : d.operators.Offers o) (os : List Operator) :
    (d.copyOperators os).1.operators.Offers o := by
  induction os generalizing d with
  | nil => exact h
  | cons p ps ih => exact ih (h.add p)

/-- An operator that is copied is offered, unless something stands against it. -/
theorem copyOperators_offers {os : List Operator} (h : o ∈ os) :
    (d.copyOperators os).1.operators.Offers o ∨ o ∈ d.operators.refused os := by
  induction os generalizing d with
  | nil => simp at h
  | cons p ps ih =>
    rcases List.mem_cons.mp h with rfl | h
    · cases ha : (d.operators.add o).2.isAccepted with
      | true => exact .inl (offers_copyOperators (offers_add ha) ps)
      | false => exact .inr (by simp [refused, ha])
    · exact (ih h).imp_right fun hr => List.mem_append_right _ hr

theorem mem_copyOperators {os : List Operator}
    (h : o ∈ (d.copyOperators os).1.operators.operators) :
    o ∈ d.operators.operators ∨ o ∈ os := by
  induction os generalizing d with
  | nil => exact .inl h
  | cons p ps ih =>
    rcases ih h with h | h
    · exact (mem_add h).elim (fun he => .inr (he ▸ List.mem_cons_self)) .inl
    · exact .inr (List.mem_cons_of_mem p h)

/-- What is reported of an operator that is left out. -/
def refusal (o : Operator) (result : Registration) : Report :=
  .warning s!"Cannot import operator definition '{o.text}':\n  {result.message o}"

/-- A warning that an operator cannot be imported. -/
def IsRefusal (o : Operator) (r : Report) : Prop :=
  r.severity = .warning ∧ ∃ result, r.message = (refusal o result).message

theorem copyOperators_refusal (ho : ¬(d.operators.add o).2.isAccepted = true)
    (os : List Operator) :
    (d.copyOperators (o :: os)).2
      = refusal o (d.operators.add o).2 ::
        ({ d with operators := (d.operators.add o).1 }.copyOperators os).2 := by
  change (if (d.operators.add o).2.isAccepted then [] else [_]) ++ _ = _
  rw [if_neg ho, List.singleton_append]
  rfl

theorem copyOperators_warns {os : List Operator} (h : o ∈ d.operators.refused os) :
    ∃ r ∈ (d.copyOperators os).2, IsRefusal o r := by
  induction os generalizing d with
  | nil => simp [refused] at h
  | cons p ps ih =>
    rcases List.mem_append.mp h with h | h
    · split at h
      · simp at h
      · rename_i ha
        rw [List.mem_singleton] at h
        subst h
        rw [copyOperators_refusal ha]
        exact ⟨_, List.mem_cons_self, rfl, _, rfl⟩
    · obtain ⟨r, hr, hwarn⟩ := ih (d := { d with operators := (d.operators.add p).1 }) h
      exact ⟨r, List.mem_append_right _ hr, hwarn⟩

theorem offers_copy (h : d.operators.Offers o) (source : Definition) :
    (d.copy source).1.operators.Offers o :=
  offers_copyOperators (by rwa [copyMacros_operators]) _

theorem copy_offers {source : Definition} (h : o ∈ source.operators.operators) :
    (d.copy source).1.operators.Offers o
      ∨ o ∈ d.operators.refused source.operators.operators := by
  have hcopy := copyOperators_offers (d := (d.copyMacros source.macros.macros).1) h
  rwa [copyMacros_operators] at hcopy

theorem mem_copy {source : Definition} (h : o ∈ (d.copy source).1.operators.operators) :
    o ∈ d.operators.operators ∨ o ∈ source.operators.operators := by
  have hmem := mem_copyOperators h
  rwa [copyMacros_operators] at hmem

theorem copy_warns {source : Definition}
    (h : o ∈ d.operators.refused source.operators.operators) :
    ∃ r ∈ (d.copy source).2, IsRefusal o r := by
  obtain ⟨r, hr, hwarn⟩ := copyOperators_warns
    (d := (d.copyMacros source.macros.macros).1) (by rwa [copyMacros_operators])
  exact ⟨r, List.mem_append_right _ hr, hwarn⟩

end Definition

end ConfigScript
