import ConfigScript.Proofs.Operator.Slots

/-! # Levels share the operators out

The levels of a table have all its operators, each level those of one key, and the keys rise from
level to level. A slot is found in one level of its fixity. -/

namespace ConfigScript

theorem gatherLevels_rising {os : List Operator} (h : os.Pairwise fun a b => a.key ≤ b.key) :
    (gatherLevels os).Pairwise fun l m => l.key < m.key := by
  induction os with
  | nil => exact List.Pairwise.nil
  | cons o os ih =>
    obtain ⟨ho, hos⟩ := List.pairwise_cons.mp h
    have hrising := ih hos
    have hgathered := gatherLevels_gathered os
    have hall := gatherLevels_flatMap os
    rw [gatherLevels]
    cases hl : gatherLevels os with
    | nil => exact List.pairwise_singleton _ _
    | cons l ls =>
      rw [hl] at hrising hgathered hall
      obtain ⟨hbelow, hrest⟩ := List.pairwise_cons.mp hrising
      simp only
      split
      · exact List.pairwise_cons.mpr ⟨hbelow, hrest⟩
      · rename_i haccepts
        -- The first level has an operator, and the new one does not bind tighter than that.
        have hfirst := hgathered l List.mem_cons_self
        obtain ⟨p, hp⟩ := List.exists_mem_of_ne_nil _ hfirst.occupied
        have hle : o.key ≤ l.key := by
          rw [← hfirst.alike p hp]
          exact ho p (hall ▸ List.mem_flatMap.mpr ⟨l, List.mem_cons_self, hp⟩)
        have hlt : o.key < l.key :=
          lt_of_le_of_ne hle fun he => haccepts (Level.accepts_iff.mpr he.symm)
        refine List.pairwise_cons.mpr ⟨List.forall_mem_cons.mpr ⟨hlt, fun m hm => ?_⟩, hrising⟩
        exact hlt.trans (hbelow m hm)

namespace OperatorTable

variable {t : OperatorTable}

theorem pairwise_inBindingOrder (t : OperatorTable) :
    t.inBindingOrder.Pairwise fun a b => a.key ≤ b.key := by
  unfold inBindingOrder
  induction t.operators with
  | nil => exact List.Pairwise.nil
  | cons o os ih =>
    refine pairwise_insertBy (fun p => Operator.bindsBefore_iff.mp) (fun p q hop hpq => ?_)
      (fun p hop => ?_) ih
    · exact (Operator.bindsBefore_iff.mp hop).trans hpq
    · rw [← Bool.not_eq_true, Operator.bindsBefore_iff, not_le] at hop
      exact hop.le

/-! ## Sharing out -/

/-- How the levels of a table share its operators out. -/
structure SharedOut (t : OperatorTable) : Prop where
  all : (t.levels.flatMap Level.operators).Perm t.operators
  occupied : ∀ l ∈ t.levels, l.operators ≠ []
  alike : ∀ l ∈ t.levels, ∀ o ∈ l.operators, o.fixity = l.fixity ∧ o.priority = l.priority
    ∧ o.isRightAssociative = l.rightAssociative
  rising : t.levels.Pairwise fun l m => l.key < m.key
  /-- A slot that holds an operator is found in exactly one level of its fixity. -/
  found : ∀ s o, t.at? s = some o → ∃ l ∈ t.levels, l.fixity = s.fixity
    ∧ l.get? s.name s.keyword = some o
    ∧ ∀ m ∈ t.levels, m.fixity = s.fixity → (m.get? s.name s.keyword).isSome = true → m = l
  missed : ∀ s, t.at? s = none →
    ∀ l ∈ t.levels, l.fixity = s.fixity → l.get? s.name s.keyword = none
  /-- Behind an operand, a spelling is found in one level at most. -/
  single : ∀ name keyword, ∀ l ∈ t.levels, ∀ m ∈ t.levels, l.fixity ≠ .prefixed →
    m.fixity ≠ .prefixed → (l.get? name keyword).isSome = true →
    (m.get? name keyword).isSome = true → l = m

theorem mem_levels_iff {o : Operator} :
    o ∈ t.operators ↔ ∃ l ∈ t.levels, o ∈ l.operators := by
  rw [← t.perm_inBindingOrder.mem_iff, ← gatherLevels_flatMap t.inBindingOrder, List.mem_flatMap]
  rfl

theorem level_unique {l m : Level} {o : Operator} (hl : l ∈ t.levels) (hm : m ∈ t.levels)
    (hol : o ∈ l.operators) (hom : o ∈ m.operators) : l = m := by
  have hgathered := gatherLevels_gathered t.inBindingOrder
  have hrising := gatherLevels_rising t.pairwise_inBindingOrder
  by_contra hne
  have hsymm : Std.Symm fun l m : Level => l.key ≠ m.key := ⟨fun _ _ h => h.symm⟩
  have hkeys : l.key ≠ m.key :=
    List.Pairwise.forall (hrising.imp fun {_ _} h => ne_of_lt h) hl hm hne
  exact hkeys (((hgathered l hl).alike o hol).symm.trans ((hgathered m hm).alike o hom))

theorem Reachable.level_eq (h : t.Reachable) {name : String} {keyword : Bool} {l m : Level}
    (hl : l ∈ t.levels) (hm : m ∈ t.levels)
    (hside : l.fixity = .prefixed ↔ m.fixity = .prefixed)
    (hfl : (l.get? name keyword).isSome = true) (hfm : (m.get? name keyword).isSome = true) :
    l = m := by
  obtain ⟨o, ho⟩ := Option.isSome_iff_exists.mp hfl
  obtain ⟨p, hp⟩ := Option.isSome_iff_exists.mp hfm
  obtain ⟨hol, hname, hkeyword⟩ := Layered.get?_spec ho
  obtain ⟨hpm, hname', hkeyword'⟩ := Layered.get?_spec hp
  have hclash : o.Clashes p := h.layered.clashes hl hm hside hol hpm (hname.trans hname'.symm)
    (hkeyword.trans hkeyword'.symm)
  have hsame : o = p := h.layered.apart.eq (Layered.mem_flatMap hl hol)
    (Layered.mem_flatMap hm hpm) hclash
  exact level_unique hl hm hol (hsame ▸ hpm)

theorem Reachable.sharedOut (h : t.Reachable) : t.SharedOut := by
  have hgathered := gatherLevels_gathered t.inBindingOrder
  have halike : ∀ l ∈ t.levels, ∀ o ∈ l.operators, o.fixity = l.fixity ∧ o.priority = l.priority
      ∧ o.isRightAssociative = l.rightAssociative := by
    intro l hl o ho
    obtain ⟨hpriority, hfixity, hright⟩ := bindingKey_inj.mp ((hgathered l hl).alike o ho)
    exact ⟨hfixity, hpriority, hright⟩
  refine ⟨?_, fun l hl => (hgathered l hl).occupied, halike,
    gatherLevels_rising t.pairwise_inBindingOrder, fun s o ho => ?_,
    fun s hs l hl hf => ?_, fun name keyword l hl m hm hfl hfm => ?_⟩
  · rw [OperatorTable.levels, gatherLevels_flatMap]
    exact t.perm_inBindingOrder
  · obtain ⟨hmem, rfl⟩ := mem_of_at? ho
    obtain ⟨l, hl, hol⟩ := mem_levels_iff.mp hmem
    have hfixity : o.fixity = l.fixity := (halike l hl o hol).1
    have hget : l.get? o.name o.keyword = some o := h.layered.get?_self hl hol
    refine ⟨l, hl, hfixity.symm, hget, fun m hm hf hfound => ?_⟩
    have hside : m.fixity = .prefixed ↔ l.fixity = .prefixed := by rw [hf, ← hfixity]; rfl
    exact h.level_eq hm hl hside hfound (Option.isSome_iff_exists.mpr ⟨o, hget⟩)
  · cases hget : l.get? s.name s.keyword with
    | none => rfl
    | some o =>
      obtain ⟨hol, hname, hkeyword⟩ := Layered.get?_spec hget
      have hslot : o.slot = s := by
        rw [Operator.slot, hname, hkeyword, (halike l hl o hol).1, hf]
      have hat := (at?_eq_some_iff h.keepApart).mpr ⟨mem_levels_iff.mpr ⟨l, hl, hol⟩, hslot⟩
      rw [hs] at hat
      simp at hat
  · exact h.level_eq hl hm (by simp [hfl, hfm])

/-- After any sequence of changes that bring in checked operators, the levels share the operators of
the table out. -/
theorem levels_share_out (cs : List Change) (h : ∀ c ∈ cs, c.Valid) : (after cs).SharedOut :=
  (reachable_after h).sharedOut

namespace Sample

def keywordAt (name : String) (fixity : Fixity) (priority : Number) : Operator :=
  ⟨name, true, fixity, none, .plain, priority⟩

/-- Both zeros, and operators that differ in fixity and associativity alone. -/
def zeros : List Operator :=
  [keywordAt "above" .binary Number.zero, keywordAt "also" .binary Number.zero,
    keywordAt "also" .prefixed Number.zero, keywordAt "below" .binary Number.zero.neg, joined,
    signed,
    { keywordAt "up" .binary Number.zero with property := .rightAssociative }]

theorem valid_zeros : ∀ o ∈ zeros, o.Valid := by
  have hkeyword (name : String) (fixity : Fixity) (priority : Number) (hn : name.isEmpty = false)
      (hb : name.toList.any Text.isBlank = false) (hp : priority.isNaN = false) :
      (keywordAt name fixity priority).Valid :=
    ⟨some priority, Operator.create_eq_ok_iff.mpr ⟨⟨hn, hb, fun _ => rfl⟩, by
      simp [keywordAt, Option.filter, hp]⟩⟩
  simp only [zeros, List.forall_mem_cons]
  refine ⟨hkeyword _ _ _ ?_ ?_ ?_, hkeyword _ _ _ ?_ ?_ ?_, hkeyword _ _ _ ?_ ?_ ?_,
    hkeyword _ _ _ ?_ ?_ ?_, valid_joined, valid_signed, ⟨some Number.zero, rfl⟩, by simp⟩
  all_goals decide +kernel

end Sample

/-- The two zeros are on levels of their own, and so are the fixities and the associativities of one
priority. -/
theorem levels_share_out_zeros :
    let cs := Sample.zeros.map Change.add
    (∀ c ∈ cs, c.Valid)
      ∧ (after cs).levels.map (fun l => l.operators.map Operator.name)
        = [["+"], ["below"], ["above", "also"], ["up"], ["also"], ["+"]]
      ∧ (after cs).SharedOut := by
  intro cs
  have hvalid : ∀ c ∈ cs, c.Valid := by
    intro c hc
    obtain ⟨o, ho, rfl⟩ := List.mem_map.mp hc
    exact Sample.valid_zeros o ho
  exact ⟨hvalid, by decide +kernel, levels_share_out cs hvalid⟩

end OperatorTable

end ConfigScript
