import ConfigScript.Macro.Overload

/-! # The least score

Weighing the members of a list one after the other, with the leaders so far in hand, comes to
those whose score is there and is the least one. In another order of the list the same members
lead. -/

namespace ConfigScript

/-- Whether one score is there and no higher than another. -/
def noWorse : Option Nat → Option Nat → Bool
  | none, _ => false
  | some _, none => true
  | some n, some k => n ≤ k

section

variable {α : Type} {score : α → Option Nat}

/-- What the leaders are after the members of a list have been weighed. -/
def LeadersOf (score : α → Option Nat) (xs : List α) : Option (Leaders α) → Prop
  | none => ∀ x ∈ xs, score x = none
  | some l => l.members ≠ [] ∧ l.members = xs.filter (fun x => score x == some l.score)
      ∧ ∀ x ∈ xs, ∀ n, score x = some n → l.score ≤ n

theorem filter_eq_nil_of_ne {xs : List α} {n : Nat} (h : ∀ y ∈ xs, score y ≠ some n) :
    xs.filter (fun y => score y == some n) = [] :=
  List.filter_eq_nil_iff.mpr fun y hy he => h y hy (beq_iff_eq.mp he)

theorem LeadersOf.weigh_unscored {xs : List α} {leaders : Option (Leaders α)}
    (h : LeadersOf score xs leaders) {x : α} (hx : score x = none) :
    LeadersOf score (xs ++ [x]) leaders := by
  cases leaders with
  | none => exact List.forall_mem_append.mpr ⟨h, by simpa using hx⟩
  | some l =>
    obtain ⟨hne, hmembers, hleast⟩ := h
    exact ⟨hne, by simp [← hmembers, hx], List.forall_mem_append.mpr ⟨hleast, by simp [hx]⟩⟩

theorem LeadersOf.weigh {xs : List α} {leaders : Option (Leaders α)}
    (h : LeadersOf score xs leaders) (x : α) :
    LeadersOf score (xs ++ [x]) (Leaders.weigh score leaders x) := by
  cases hx : score x with
  | none =>
    have hsame : Leaders.weigh score leaders x = leaders := by simp [Leaders.weigh, hx]
    rw [hsame]
    exact h.weigh_unscored hx
  | some n =>
    have hlast {b : Nat} (hb : b ≤ n) : ∀ y ∈ [x], ∀ k, score y = some k → b ≤ k := by
      intro y hy k hk
      rw [List.mem_singleton.mp hy, hx] at hk
      exact Option.some.inj hk ▸ hb
    cases leaders with
    | none =>
      -- No member before this one has a score.
      have hnone : xs.filter (fun y => score y == some n) = [] :=
        filter_eq_nil_of_ne fun y hy => by simp [h y hy]
      simp only [Leaders.weigh, hx]
      exact ⟨by simp, by simp [hnone, hx],
        List.forall_mem_append.mpr ⟨fun y hy k hk => by simp [h y hy] at hk, hlast n.le_refl⟩⟩
    | some l =>
      obtain ⟨hne, hmembers, hleast⟩ := h
      have hall {b : Nat} (hb : b ≤ l.score) (hn : b ≤ n) :
          ∀ y ∈ xs ++ [x], ∀ k, score y = some k → b ≤ k :=
        List.forall_mem_append.mpr
          ⟨fun y hy k hk => Nat.le_trans hb (hleast y hy k hk), hlast hn⟩
      simp only [Leaders.weigh, hx]
      split
      · rename_i hlt
        have hother : (score x == some l.score) = false := by
          refine beq_eq_false_iff_ne.mpr fun he => ?_
          rw [hx] at he
          exact Nat.lt_irrefl n (Option.some.inj he ▸ hlt)
        exact ⟨hne, by simp [← hmembers, hother], hall l.score.le_refl (Nat.le_of_lt hlt)⟩
      · split
        · rename_i heq
          exact ⟨by simp, by simp [hmembers, heq, hx], hall (Nat.le_of_eq heq.symm) n.le_refl⟩
        · rename_i hnlt hne'
          -- The new score is below all those before.
          have hlt : n < l.score := by omega
          have hnone : xs.filter (fun y => score y == some n) = [] :=
            filter_eq_nil_of_ne fun y hy he => Nat.not_le.mpr hlt (hleast y hy n he)
          exact ⟨by simp, by simp [hnone, hx], hall (Nat.le_of_lt hlt) n.le_refl⟩

theorem LeadersOf.foldl {done : List α} {leaders : Option (Leaders α)}
    (h : LeadersOf score done leaders) (xs : List α) :
    LeadersOf score (done ++ xs) (xs.foldl (Leaders.weigh score) leaders) := by
  induction xs generalizing done leaders with
  | nil => simpa using h
  | cons x xs ih => simpa using ih (h.weigh x)

theorem leadersOf_foldl (score : α → Option Nat) (xs : List α) :
    LeadersOf score xs (xs.foldl (Leaders.weigh score) none) := by
  have hnil : LeadersOf score [] none := by simp [LeadersOf]
  simpa using hnil.foldl xs

/-- The members with the least score are those that no other is better than. -/
theorem bestOf_eq_filter (score : α → Option Nat) (xs : List α) :
    bestOf score xs = xs.filter fun x => xs.all fun y => noWorse (score x) (score y) := by
  have h := leadersOf_foldl score xs
  unfold bestOf
  generalize xs.foldl (Leaders.weigh score) none = leaders at h
  cases leaders with
  | none =>
    refine (List.filter_eq_nil_iff.mpr fun x hx hall => ?_).symm
    have hself := List.all_eq_true.mp hall x hx
    simp [h x hx, noWorse] at hself
  | some l =>
    obtain ⟨hne, hmembers, hleast⟩ := h
    obtain ⟨x₀, hx₀⟩ := List.exists_mem_of_ne_nil _ hne
    rw [hmembers, List.mem_filter, beq_iff_eq] at hx₀
    rw [Option.map_some, Option.getD_some, hmembers]
    refine List.filter_congr fun x hx => Bool.eq_iff_iff.mpr ?_
    rw [beq_iff_eq, List.all_eq_true]
    constructor
    · intro hl y hy
      cases hs : score y with
      | none => simp [hl, noWorse]
      | some k => simpa [hl, noWorse] using hleast y hy k hs
    · intro hall
      have hle := hall x₀ hx₀.1
      cases hs : score x with
      | none => simp [hs, noWorse] at hle
      | some n =>
        have hn : n ≤ l.score := by simpa [hs, hx₀.2, noWorse] using hle
        rw [Nat.le_antisymm hn (hleast x hx n hs)]

theorem bestOf_eq_nil_iff {xs : List α} : bestOf score xs = [] ↔ ∀ x ∈ xs, score x = none := by
  have h := leadersOf_foldl score xs
  unfold bestOf
  generalize xs.foldl (Leaders.weigh score) none = leaders at h
  cases leaders with
  | none => exact iff_of_true rfl h
  | some l =>
    obtain ⟨hne, hmembers, -⟩ := h
    obtain ⟨x, hx⟩ := List.exists_mem_of_ne_nil _ hne
    rw [hmembers, List.mem_filter, beq_iff_eq] at hx
    refine iff_of_false hne fun hnone => ?_
    rw [hnone x hx.1] at hx
    exact Option.some_ne_none _ hx.2.symm

theorem mem_bestOf {xs : List α} {x : α} (h : x ∈ bestOf score xs) : x ∈ xs := by
  rw [bestOf_eq_filter] at h
  exact (List.mem_filter.mp h).1

theorem bestOf_perm {xs ys : List α} (h : xs.Perm ys) :
    (bestOf score xs).Perm (bestOf score ys) := by
  have hall (x : α) : (xs.all fun y => noWorse (score x) (score y))
      = ys.all fun y => noWorse (score x) (score y) := by
    rw [Bool.eq_iff_iff, List.all_eq_true, List.all_eq_true]
    exact forall_congr' fun y => by rw [h.mem_iff]
  simp only [bestOf_eq_filter, hall]
  exact h.filter _

end

end ConfigScript
