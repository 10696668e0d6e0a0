import ConfigScript.Operator.Level
import Mathlib.Data.Bool.Basic
import Mathlib.Data.Prod.Lex

/-! # Keys of binding

Operators are sorted by one comparison and gathered into levels by another. Both look at the same
key: priority, fixity and associativity. -/

namespace ConfigScript

theorem Number.orderKey_injective : Function.Injective Number.orderKey := by
  intro x y h
  have hx := x.bits.toNat_lt
  have hy := y.bits.toNat_lt
  simp only [Number.orderKey, Number.isNegative, Number.magnitude, Number.twoPow, Nat.pow_eq] at h
  have hbits : x.bits.toNat = y.bits.toNat := by
    by_cases hnx : 2 ^ 63 ≤ x.bits.toNat <;> by_cases hny : 2 ^ 63 ≤ y.bits.toNat
    all_goals
      simp only [hnx, hny, decide_true, decide_false, if_true, if_false, Bool.false_eq_true] at h
      omega
  cases x
  cases y
  simpa using UInt64.toNat_inj.mp hbits

theorem Fixity.rank_injective : Function.Injective Fixity.rank := by
  intro f g h
  cases f <;> cases g <;> simp_all [Fixity.rank]

/-- How tightly something binds: by priority, then by fixity, then by associativity. -/
abbrev BindingKey := ℤ ×ₗ ℕ ×ₗ Bool

def bindingKey (priority : Number) (fixity : Fixity) (rightAssociative : Bool) : BindingKey :=
  toLex (priority.orderKey, toLex (fixity.rank, rightAssociative))

theorem bindingKey_inj {p q : Number} {f g : Fixity} {a b : Bool} :
    bindingKey p f a = bindingKey q g b ↔ p = q ∧ f = g ∧ a = b := by
  simp [bindingKey, Number.orderKey_injective.eq_iff, Fixity.rank_injective.eq_iff]

def Operator.key (o : Operator) : BindingKey := bindingKey o.priority o.fixity o.isRightAssociative

def Level.key (l : Level) : BindingKey := bindingKey l.priority l.fixity l.rightAssociative

theorem Operator.bindsBefore_iff {a b : Operator} : a.bindsBefore b = true ↔ a.key ≤ b.key := by
  rw [Operator.key, Operator.key, bindingKey, bindingKey, Prod.Lex.toLex_le_toLex,
    Prod.Lex.toLex_le_toLex, Operator.bindsBefore]
  split
  · rename_i hp
    split
    · rename_i hf
      cases ha : a.isRightAssociative <;> cases hb : b.isRightAssociative <;> simp [hp, hf]
    · rename_i hf
      have hrank : a.fixity.rank ≠ b.fixity.rank := fun h => hf (Fixity.rank_injective h)
      simp [hp, hrank]
  · rename_i hp
    simp [hp]

theorem Level.accepts_iff {l : Level} {o : Operator} : l.accepts o = true ↔ l.key = o.key := by
  simp [Level.accepts, Level.key, Operator.key, bindingKey, Fixity.rank_injective.eq_iff, and_assoc,
    and_left_comm]

/-! ## Gathering -/

/-- The operators of a level all have its key, and there is one. -/
structure Level.Gathered (l : Level) : Prop where
  occupied : l.operators ≠ []
  alike : ∀ o ∈ l.operators, o.key = l.key

theorem Level.single_gathered (o : Operator) : (Level.single o).Gathered :=
  ⟨by simp [Level.single], by simp [Level.single, Level.key, Operator.key]⟩

theorem Level.Gathered.push {l : Level} (h : l.Gathered) {o : Operator} (ho : l.key = o.key) :
    { l with operators := o :: l.operators : Level }.Gathered :=
  ⟨by simp, List.forall_mem_cons.mpr ⟨ho.symm, h.alike⟩⟩

theorem gatherLevels_gathered (os : List Operator) : ∀ l ∈ gatherLevels os, l.Gathered := by
  induction os with
  | nil => simp [gatherLevels]
  | cons o os ih =>
    rw [gatherLevels]
    cases hl : gatherLevels os with
    | nil => simpa using Level.single_gathered o
    | cons l ls =>
      rw [hl] at ih
      obtain ⟨hfirst, hrest⟩ := List.forall_mem_cons.mp ih
      simp only
      split
      · rename_i haccepts
        exact List.forall_mem_cons.mpr ⟨hfirst.push (Level.accepts_iff.mp haccepts), hrest⟩
      · exact List.forall_mem_cons.mpr ⟨Level.single_gathered o, ih⟩

end ConfigScript
