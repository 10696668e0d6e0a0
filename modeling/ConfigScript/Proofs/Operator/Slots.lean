import ConfigScript.Proofs.Operator.Levels
import ConfigScript.Proofs.Operator.Offers
import ConfigScript.Proofs.Operator.Written

/-! # Slots of a table

A spelling has a slot for each fixity. After any sequence of changes to a table, each operator is in
its own slot, no slot of a spelling that is taken excludes another one that is, and the operators
have passed their checks. What adding and replacing do is said slot by slot. -/

namespace ConfigScript

/-- A place for one definition: a spelling with a fixity. -/
structure Slot where
  name : String
  keyword : Bool
  fixity : Fixity
  deriving DecidableEq, Repr

/-- The slot that cannot be taken at the same time. -/
def Slot.exclusive? (s : Slot) : Option Slot :=
  s.fixity.exclusive?.map fun fixity => { s with fixity }

def Operator.slot (o : Operator) : Slot := ⟨o.name, o.keyword, o.fixity⟩

theorem Operator.Valid.same_self {o : Operator} (h : o.Valid) : o.same o = true := by
  simp [Operator.same, Number.eq, h.priority]

namespace OperatorTable

variable {t : OperatorTable} {o p : Operator} {s x : Slot}

/-- What a table holds in a slot. -/
def at? (t : OperatorTable) (s : Slot) : Option Operator := t.get? s.name s.keyword s.fixity

/-! ## Changes -/

/-- What is done to a table. -/
inductive Change
  | add (o : Operator)
  | replace (o : Operator)
  | remove (name : String) (keyword : Bool)
  | clear

namespace Change

def apply (t : OperatorTable) : Change → OperatorTable
  | add o => (t.add o).1
  | replace o => t.replace o
  | remove name keyword => t.remove name keyword
  | clear => {}

/-- A change that brings in checked operators alone. -/
def Valid : Change → Prop
  | add o => o.Valid
  | replace o => o.Valid
  | remove _ _ => True
  | clear => True

end Change

theorem Reachable.apply (h : t.Reachable) {c : Change} (hc : c.Valid) : (c.apply t).Reachable := by
  cases c with
  | add o => exact .add h hc
  | replace o => exact .replace h hc
  | remove name keyword => exact .remove h name keyword
  | clear => exact .empty

/-- The table that a sequence of changes leads to from the empty one. -/
def after (cs : List Change) : OperatorTable := cs.foldl Change.apply {}

theorem reachable_after {cs : List Change} (h : ∀ c ∈ cs, c.Valid) : (after cs).Reachable :=
  List.foldlRecOn cs Change.apply Reachable.empty fun _ ht c hc => ht.apply (h c hc)

/-! ## What a slot holds -/

theorem mem_of_at? (h : t.at? s = some o) : o ∈ t.operators ∧ o.slot = s := by
  have hfound := List.find?_some h
  simp only [Operator.spelledAs, Bool.and_eq_true, beq_iff_eq] at hfound
  obtain ⟨⟨hname, hkeyword⟩, hfixity⟩ := hfound
  exact ⟨List.mem_of_find?_eq_some h, by rw [Operator.slot, hname, hkeyword, hfixity]⟩

theorem clashes_of_slot (h : o.slot = p.slot) : o.Clashes p := by
  simp only [Operator.slot, Slot.mk.injEq] at h
  exact ⟨h.1, h.2.1, by rw [h.2.2]⟩

theorem at?_eq_some_iff (h : KeepApart t.operators) :
    t.at? s = some o ↔ o ∈ t.operators ∧ o.slot = s := by
  refine ⟨mem_of_at?, fun ⟨ho, hs⟩ => ?_⟩
  subst hs
  cases hat : t.at? o.slot with
  | none =>
    have hnot := List.find?_eq_none.mp hat o ho
    simp [Operator.spelledAs, Operator.slot] at hnot
  | some p =>
    obtain ⟨hp, hslot⟩ := mem_of_at? hat
    rw [h.eq hp ho (clashes_of_slot hslot)]

theorem clashes_of_exclusive (h : p.slot ∈ o.slot.exclusive?) : o.Clashes p := by
  simp only [Slot.exclusive?, Option.mem_def, Option.map_eq_some_iff] at h
  obtain ⟨fixity, hf, hslot⟩ := h
  simp only [Operator.slot, Slot.mk.injEq] at hslot
  obtain ⟨hname, hkeyword, hfixity⟩ := hslot
  refine ⟨hname, hkeyword, ?_⟩
  cases ho : o.fixity <;> cases hp : p.fixity <;> simp_all [Operator.slot, Fixity.exclusive?]

theorem Slot.exclusive?_ne (h : x ∈ s.exclusive?) : x ≠ s := by
  simp only [Slot.exclusive?, Option.mem_def, Option.map_eq_some_iff] at h
  obtain ⟨fixity, hf, rfl⟩ := h
  intro he
  have hfixity : fixity = s.fixity := congrArg Slot.fixity he
  subst hfixity
  cases hs : s.fixity <;> simp [hs, Fixity.exclusive?] at hf

theorem excludes_iff : excludes o p = true ↔ p.slot = o.slot ∨ p.slot ∈ o.slot.exclusive? := by
  simp only [excludes, Operator.spelledAs, Bool.and_eq_true, Bool.or_eq_true, beq_iff_eq,
    Slot.exclusive?, Option.mem_def, Option.map_eq_some_iff, Operator.slot, Slot.mk.injEq]
  constructor
  · rintro ⟨⟨hname, hkeyword⟩, hf | hf⟩
    · exact .inl ⟨hname, hkeyword, hf⟩
    · exact .inr ⟨p.fixity, hf.symm, hname.symm, hkeyword.symm, rfl⟩
  · rintro (⟨hname, hkeyword, hf⟩ | ⟨fixity, hf, hname, hkeyword, rfl⟩)
    · exact ⟨⟨hname, hkeyword⟩, .inl hf⟩
    · exact ⟨⟨hname.symm, hkeyword.symm⟩, .inr hf.symm⟩

/-! ## The invariant -/

/-- What holds of the slots of a table. -/
structure Consistent (t : OperatorTable) : Prop where
  /-- A slot that excludes one that is taken is empty. -/
  exclusive : ∀ s, ∀ x ∈ s.exclusive?, (t.at? s).isSome = true → t.at? x = none
  /-- A slot holds an operator of its own spelling and fixity. -/
  own : ∀ s o, t.at? s = some o → o.slot = s
  /-- Every operator is in its slot. -/
  stored : ∀ o ∈ t.operators, t.at? o.slot = some o
  /-- The spellings are those with a slot that is taken. -/
  occupied : ∀ name keyword, (name, keyword) ∈ t.spellings ↔
    ∃ fixity, (t.at? ⟨name, keyword, fixity⟩).isSome = true
  numbers : ∀ o ∈ t.operators, o.priority.isNaN = false
  plain : ∀ o ∈ t.operators, o.fixity ≠ .binary → o.property = .plain

theorem mem_spellings_iff {name : String} {keyword : Bool} :
    (name, keyword) ∈ t.spellings ↔ ∃ o ∈ t.operators, o.name = name ∧ o.keyword = keyword := by
  simp [spellings, List.mem_eraseDups]

theorem Reachable.consistent (h : t.Reachable) : t.Consistent where
  exclusive s x hx htaken := by
    obtain ⟨o, ho⟩ := Option.isSome_iff_exists.mp htaken
    obtain ⟨hmem, rfl⟩ := mem_of_at? ho
    cases hat : t.at? x with
    | none => rfl
    | some p =>
      obtain ⟨hp, rfl⟩ := mem_of_at? hat
      have hsame := h.keepApart.eq hmem hp (clashes_of_exclusive hx)
      exact absurd (congrArg Operator.slot hsame).symm (Slot.exclusive?_ne hx)
  own s o ho := (mem_of_at? ho).2
  stored o ho := (at?_eq_some_iff h.keepApart).mpr ⟨ho, rfl⟩
  occupied name keyword := by
    rw [mem_spellings_iff]
    constructor
    · rintro ⟨o, ho, rfl, rfl⟩
      have hstored : t.at? o.slot = some o := (at?_eq_some_iff h.keepApart).mpr ⟨ho, rfl⟩
      exact ⟨o.fixity, Option.isSome_iff_exists.mpr ⟨o, hstored⟩⟩
    · rintro ⟨fixity, htaken⟩
      obtain ⟨o, ho⟩ := Option.isSome_iff_exists.mp htaken
      obtain ⟨hmem, hslot⟩ := mem_of_at? ho
      exact ⟨o, hmem, congrArg Slot.name hslot, congrArg Slot.keyword hslot⟩
  numbers o ho := (h.valid o ho).priority
  plain o ho := (h.valid o ho).sound.plain

/-! ## Adding and replacing -/

theorem add_of_refused (h : (t.add o).2.isAccepted = false) : (t.add o).1 = t := by
  unfold OperatorTable.add at h ⊢
  split
  · rfl
  · rename_i hfree
    split
    · rfl
    · rename_i hopen
      simp [hfree, hopen, Registration.isAccepted] at h

/-- Adding is accepted exactly if an equal definition is in the slot afterwards. -/
theorem add_isAccepted_iff (ho : o.Valid) :
    (t.add o).2.isAccepted = true ↔ ∃ e, (t.add o).1.at? o.slot = some e ∧ e.same o = true := by
  constructor
  · intro haccepted
    obtain ⟨e, he, rfl | hsame⟩ := offers_add haccepted
    · exact ⟨e, he, ho.same_self⟩
    · exact ⟨e, he, hsame⟩
  · rintro ⟨e, he, hsame⟩
    by_contra hrefused
    rw [Bool.not_eq_true] at hrefused
    rw [add_of_refused hrefused] at he
    have hget : t.get? o.name o.keyword o.fixity = some e := he
    simp [OperatorTable.add, hget, hsame, Registration.isAccepted] at hrefused

theorem mem_replace_iff : p ∈ (t.replace o).operators ↔
    p = o ∨ p ∈ t.operators ∧ ¬(p.slot = o.slot ∨ p.slot ∈ o.slot.exclusive?) := by
  rw [OperatorTable.replace, insertOrdered, (perm_insertBy _ o _).mem_iff, List.mem_cons,
    List.mem_filter, ← excludes_iff]
  simp

theorem at?_replace_self (h : t.Reachable) (ho : o.Valid) : (t.replace o).at? o.slot = some o :=
  (at?_eq_some_iff (h.replace ho).keepApart).mpr ⟨mem_replace_iff.mpr (.inl rfl), rfl⟩

theorem at?_replace_of_ne (h : t.Reachable) (ho : o.Valid) (hs : s ≠ o.slot)
    (hx : s ∉ o.slot.exclusive?) : (t.replace o).at? s = t.at? s := by
  refine Option.ext fun e => ?_
  rw [at?_eq_some_iff (h.replace ho).keepApart, at?_eq_some_iff h.keepApart, mem_replace_iff]
  constructor
  · rintro ⟨rfl | ⟨he, -⟩, rfl⟩
    · exact absurd rfl hs
    · exact ⟨he, rfl⟩
  · rintro ⟨he, rfl⟩
    exact ⟨.inr ⟨he, not_or.mpr ⟨hs, hx⟩⟩, rfl⟩

/-- After any sequence of changes that bring in checked operators: the slots are consistent; adding
a checked operator is accepted exactly if its slot then holds an equal one, and changes nothing if
it is refused; replacing puts it into its slot, empties the one that this excludes, and leaves the
others as they are. -/
theorem slots_after_changes (cs : List Change) (h : ∀ c ∈ cs, c.Valid) :
    let t := after cs
    t.Consistent ∧ ∀ o : Operator, o.Valid →
      ((t.add o).2.isAccepted = true ↔
        ∃ e, (t.add o).1.at? o.slot = some e ∧ e.same o = true)
      ∧ ((t.add o).2.isAccepted = false → (t.add o).1 = t)
      ∧ (t.replace o).at? o.slot = some o
      ∧ (∀ x ∈ o.slot.exclusive?, (t.replace o).at? x = none)
      ∧ ∀ s, s ≠ o.slot → s ∉ o.slot.exclusive? → (t.replace o).at? s = t.at? s := by
  intro t
  have ht : t.Reachable := reachable_after h
  refine ⟨ht.consistent, fun o ho => ⟨add_isAccepted_iff ho, add_of_refused,
    at?_replace_self ht ho, fun x hx => ?_, fun s hs hx => at?_replace_of_ne ht ho hs hx⟩⟩
  have htaken : ((t.replace o).at? o.slot).isSome = true := by rw [at?_replace_self ht ho]; rfl
  exact (ht.replace ho).consistent.exclusive o.slot x hx htaken

namespace Sample

/-- `+` between two operands, at the lowest of all priorities. -/
def joined : Operator := ⟨"+", false, .binary, none, .rightAssociative, Number.infinity true⟩

def signed : Operator := ⟨"+", false, .prefixed, some "positive", .plain, Number.ofInt 9⟩

def closing : Operator := ⟨"+", false, .postfixed, none, .plain, Number.ofInt 10⟩

def word : Operator := ⟨"plus", true, .binary, none, .accessor, Number.ofInt 6⟩

theorem valid_joined : joined.Valid := ⟨some (Number.infinity true), rfl⟩

theorem valid_signed : signed.Valid := ⟨none, rfl⟩

theorem valid_closing : closing.Valid := ⟨some Number.notANumber, rfl⟩

theorem valid_word : word.Valid := ⟨none, rfl⟩

def changes : List Change :=
  [.add word, .clear, .add joined, .add closing, .add signed, .add word, .remove "plus" true]

theorem valid_changes : ∀ c ∈ changes, c.Valid := by
  simp [changes, Change.Valid, valid_joined, valid_signed, valid_closing, valid_word]

end Sample

/-- `+` is binary and prefix. As a postfix operator it is refused, or takes the place of the binary
one. -/
theorem slots_after_changes_exclusive :
    let t := after Sample.changes
    let o := Sample.closing
    (∀ c ∈ Sample.changes, c.Valid) ∧ o.Valid ∧ t.operators = [Sample.joined, Sample.signed]
      ∧ t.Consistent ∧ (t.add o).1 = t ∧ o.slot.exclusive? = some Sample.joined.slot
      ∧ (t.replace o).at? o.slot = some o ∧ (t.replace o).at? Sample.joined.slot = none
      ∧ (t.replace o).at? Sample.signed.slot = some Sample.signed := by
  intro t o
  obtain ⟨hconsistent, hchanges⟩ := slots_after_changes Sample.changes Sample.valid_changes
  obtain ⟨-, hrefused, hself, hexcluded, hothers⟩ := hchanges o Sample.valid_closing
  refine ⟨Sample.valid_changes, Sample.valid_closing, by decide +kernel, hconsistent,
    hrefused (by decide +kernel), rfl, hself, hexcluded _ rfl, ?_⟩
  rw [hothers _ (by decide) (by decide)]
  decide +kernel

end OperatorTable

end ConfigScript
