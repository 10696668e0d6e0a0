import ConfigScript.Macro.Registry
import Mathlib.Data.List.Basic
import Mathlib.Data.List.Induction

/-! # Histories of a registry

What a sequence of definitions and undefinitions leaves of a signature are the macros that no later
one drops, in the order of their definition. A macro that is left behind another one was defined
when that one was already there, and said then whether it overlaps with it. -/

namespace ConfigScript

/-! ## Order of signatures -/

namespace Signature

theorem precedes_iff {a b : Signature} :
    a.precedes b = true ↔ a.name < b.name ∨ a.name = b.name ∧ a.kind.rank < b.kind.rank := by
  unfold precedes
  split
  · rename_i h
    simp [h]
  · rename_i h
    simp [h]

theorem not_precedes_self (a : Signature) : a.precedes a = false := by
  simp [precedes]

theorem precedes_trans {a b c : Signature} (hab : a.precedes b = true)
    (hbc : b.precedes c = true) : a.precedes c = true := by
  rw [precedes_iff] at hab hbc ⊢
  rcases hab with hab | ⟨hab, hrab⟩
  · rcases hbc with hbc | ⟨hbc, -⟩
    · exact .inl (String.lt_trans hab hbc)
    · exact .inl (hbc ▸ hab)
  · rcases hbc with hbc | ⟨hbc, hrbc⟩
    · exact .inl (hab ▸ hbc)
    · exact .inr ⟨hab.trans hbc, Nat.lt_trans hrab hrbc⟩

theorem eq_of_not_precedes {a b : Signature} (hab : a.precedes b = false)
    (hba : b.precedes a = false) : a = b := by
  rw [← Bool.not_eq_true, precedes_iff, not_or, not_and] at hab hba
  have hname : a.name = b.name := String.le_antisymm hba.1 hab.1
  have hrank : a.kind.rank = b.kind.rank :=
    Nat.le_antisymm (Nat.not_lt.mp (hba.2 hname.symm)) (Nat.not_lt.mp (hab.2 hname))
  obtain ⟨name, kind⟩ := a
  obtain ⟨name', kind'⟩ := b
  have hkind : kind = kind' := by cases kind <;> cases kind' <;> simp_all [MacroKind.rank]
  rw [Signature.mk.injEq]
  exact ⟨hname, hkind⟩

end Signature

namespace MacroRegistry

/-- No macro stands behind one of a later signature. -/
def Ordered (ms : List Macro) : Prop :=
  ms.Pairwise fun m n => n.signature.precedes m.signature = false

theorem mem_insertOrdered {m n : Macro} {ms : List Macro} (h : n ∈ insertOrdered m ms) :
    n = m ∨ n ∈ ms := by
  induction ms with
  | nil => exact .inl (by simpa [insertOrdered] using h)
  | cons k ks ih =>
    rw [insertOrdered] at h
    split at h
    · simpa using h
    · rcases List.mem_cons.mp h with rfl | h
      · exact .inr List.mem_cons_self
      · exact (ih h).imp_right (List.mem_cons_of_mem k)

theorem Ordered.not_precedes {k m : Macro} {ks : List Macro} (h : Ordered (k :: ks))
    (hk : m.signature.precedes k.signature = true) :
    ∀ n ∈ k :: ks, n.signature.precedes m.signature = false := by
  intro n hn
  refine Bool.eq_false_iff.mpr fun hp => ?_
  have hnk := Signature.precedes_trans hp hk
  rcases List.mem_cons.mp hn with rfl | hn
  · rw [Signature.not_precedes_self] at hnk
    exact Bool.false_ne_true hnk
  · rw [(List.pairwise_cons.mp h).1 n hn] at hnk
    exact Bool.false_ne_true hnk

theorem Ordered.insertOrdered {ms : List Macro} (h : Ordered ms) (m : Macro) :
    Ordered (insertOrdered m ms) := by
  induction ms with
  | nil => exact List.pairwise_singleton _ m
  | cons k ks ih =>
    rw [MacroRegistry.insertOrdered]
    split
    · rename_i hk
      exact List.pairwise_cons.mpr ⟨h.not_precedes hk, h⟩
    · rename_i hk
      obtain ⟨hfirst, hrest⟩ := List.pairwise_cons.mp h
      refine List.pairwise_cons.mpr ⟨fun n hn => ?_, ih hrest⟩
      rcases mem_insertOrdered hn with rfl | hn
      · exact Bool.eq_false_iff.mpr hk
      · exact hfirst n hn

/-- A macro goes behind those of its signature, and leaves the others as they are. -/
theorem Ordered.filter_insertOrdered {ms : List Macro} (h : Ordered ms) (m : Macro)
    (s : Signature) :
    (MacroRegistry.insertOrdered m ms).filter (fun n => n.signature == s)
      = ms.filter (fun n => n.signature == s) ++ [m].filter (fun n => n.signature == s) := by
  induction ms with
  | nil => rfl
  | cons k ks ih =>
    rw [MacroRegistry.insertOrdered]
    split
    · rename_i hk
      by_cases hs : m.signature = s
      · -- None of the signature stands from here on.
        have hnone : (k :: ks).filter (fun n => n.signature == s) = [] := by
          refine List.filter_eq_nil_iff.mpr fun n hn heq => ?_
          have hsame : n.signature = m.signature := (beq_iff_eq.mp heq).trans hs.symm
          have hrest := h.not_precedes hk n hn
          rcases List.mem_cons.mp hn with rfl | hn
          · rw [hsame, Signature.not_precedes_self] at hk
            exact Bool.false_ne_true hk
          · have hbehind := (List.pairwise_cons.mp h).1 n hn
            rw [hsame, hk] at hbehind
            exact Bool.false_ne_true hbehind.symm
        rw [hnone, List.nil_append, List.filter_cons, hnone, List.filter_cons, List.filter_nil]
      · have hm : ¬(m.signature == s) = true := fun heq => hs (beq_iff_eq.mp heq)
        rw [List.filter_cons, if_neg hm]
        simp [hs]
    · rw [List.filter_cons, List.filter_cons, ih (List.pairwise_cons.mp h).2]
      split
      · rfl
      · rfl

theorem subset_of_groups {ms ns : List Macro}
    (h : ∀ s, ms.filter (fun m => m.signature == s) = ns.filter fun m => m.signature == s) :
    ms ⊆ ns := by
  intro m hm
  have hown : m ∈ ms.filter fun n => n.signature == m.signature :=
    List.mem_filter.mpr ⟨hm, beq_self_eq_true _⟩
  rw [h] at hown
  exact (List.mem_filter.mp hown).1

theorem Ordered.first {m n : Macro} {ms : List Macro} (h : Ordered (m :: ms)) (hn : n ∈ m :: ms) :
    n.signature.precedes m.signature = false := by
  rcases List.mem_cons.mp hn with rfl | hn
  · exact Signature.not_precedes_self _
  · exact (List.pairwise_cons.mp h).1 n hn

/-- An ordered list is known from the macros of each signature. -/
theorem Ordered.eq_of_groups {ms ns : List Macro} (hm : Ordered ms) (hn : Ordered ns)
    (h : ∀ s, ms.filter (fun m => m.signature == s) = ns.filter fun m => m.signature == s) :
    ms = ns := by
  have hms := subset_of_groups h
  have hns := subset_of_groups fun s => (h s).symm
  induction ms generalizing ns with
  | nil => exact (List.subset_nil.mp hns).symm
  | cons m ms ih =>
    cases ns with
    | nil => exact absurd (List.subset_nil.mp hms) (List.cons_ne_nil m ms)
    | cons n ns =>
      -- Each of the two heads stands in the other list, so neither signature precedes.
      have hsignature : m.signature = n.signature :=
        Signature.eq_of_not_precedes (hn.first (hms List.mem_cons_self))
          (hm.first (hns List.mem_cons_self))
      have hheads := h m.signature
      rw [List.filter_cons, List.filter_cons, if_pos (beq_self_eq_true _),
        if_pos (beq_iff_eq.mpr hsignature.symm)] at hheads
      obtain ⟨rfl, -⟩ := List.cons.inj hheads
      have hrest : ∀ s, ms.filter (fun m => m.signature == s)
          = ns.filter fun m => m.signature == s := by
        intro s
        have hs := h s
        rw [List.filter_cons, List.filter_cons] at hs
        split at hs
        · exact (List.cons.inj hs).2
        · exact hs
      rw [ih (List.pairwise_cons.mp hm).2 (List.pairwise_cons.mp hn).2 hrest
        (subset_of_groups hrest) (subset_of_groups fun s => (hrest s).symm)]

/-! ## Changes -/

/-- What is done to a registry: a macro is defined, or all macros of a signature are undefined. -/
inductive Change
  | add (m : Macro)
  | remove (s : Signature)

namespace Change

def apply (r : MacroRegistry) : Change → MacroRegistry
  | add m => (r.add m).1
  | remove s => r.remove s

/-- Whether a change takes a macro out of a registry. -/
def drops (m : Macro) : Change → Bool
  | add new => m.signature == new.signature && (!new.kind.takesParameters || new.overwrites m)
  | remove s => m.signature == s

/-- What a change puts into a registry. -/
def added : Change → List Macro
  | add m => [m]
  | remove _ => []

theorem sublist_added (c : Change) {ms : List Macro} (h : ms.Sublist c.added) :
    ms = [] ∨ ∃ m, c = add m ∧ ms = [m] := by
  cases c with
  | add m => exact (List.sublist_singleton.mp h).imp_right fun hms => ⟨m, rfl, hms⟩
  | remove s => exact .inl (List.sublist_nil.mp h)

end Change

/-- The registry that a sequence of changes leads to from the empty one. -/
def after (cs : List Change) : MacroRegistry := cs.foldl Change.apply {}

theorem after_append_singleton (cs : List Change) (c : Change) :
    after (cs ++ [c]) = c.apply (after cs) := by
  simp [after]

theorem Ordered.apply {r : MacroRegistry} (h : Ordered r.macros) (c : Change) :
    Ordered (c.apply r).macros := by
  cases c with
  | add m => exact Ordered.insertOrdered (h.filter _) m
  | remove s => exact h.filter _

theorem ordered_after (cs : List Change) : Ordered (after cs).macros := by
  induction cs using List.reverseRecOn with
  | nil => exact List.Pairwise.nil
  | append_singleton cs c ih =>
    rw [after_append_singleton]
    exact ih.apply c

theorem group_apply {r : MacroRegistry} (h : Ordered r.macros) (c : Change) (s : Signature) :
    (c.apply r).group s
      = (r.group s).filter (fun m => !c.drops m) ++ c.added.filter (fun m => m.signature == s) := by
  cases c with
  | add new =>
    have hkept : Ordered (r.macros.filter fun m => !(Change.add new).drops m) := h.filter _
    have hgroup := hkept.filter_insertOrdered new s
    rw [List.filter_comm] at hgroup
    exact hgroup
  | remove t =>
    rw [Change.added, List.filter_nil, List.append_nil]
    exact List.filter_comm _ _ _

/-! ## What is kept -/

/-- The macros that a sequence of changes defines and that no later one of them drops. -/
def kept : List Change → List Macro
  | [] => []
  | c :: cs => c.added.filter (fun m => !cs.any fun c' => c'.drops m) ++ kept cs

theorem kept_append (cs ds : List Change) :
    kept (cs ++ ds) = (kept cs).filter (fun m => !ds.any fun c => c.drops m) ++ kept ds := by
  induction cs with
  | nil => rfl
  | cons c cs ih =>
    rw [List.cons_append, kept, ih, kept, List.filter_append, List.append_assoc,
      List.filter_filter]
    simp [List.any_append, Bool.and_comm]

theorem kept_append_singleton (cs : List Change) (c : Change) :
    kept (cs ++ [c]) = (kept cs).filter (fun m => !c.drops m) ++ c.added := by
  rw [kept_append]
  simp [kept]

/-- Changes that drop all that they define, when they are made again, keep the same macros the
second time as the first. -/
theorem kept_append_again {ds : List Change} (h : ∀ m ∈ kept ds, ds.any fun c => c.drops m)
    (cs : List Change) : kept (cs ++ ds ++ ds) = kept (cs ++ ds) := by
  have hnone : (kept ds).filter (fun m => !ds.any fun c => c.drops m) = [] :=
    List.filter_eq_nil_iff.mpr fun m hm => by simp only [h m hm, Bool.not_true]; decide
  rw [kept_append (cs ++ ds), kept_append cs, List.filter_append, hnone, List.append_nil,
    List.filter_filter]
  simp only [Bool.and_self]

/-- The overloads of a signature are the definitions of it that no later change drops, in the order
in which they were made. -/
theorem group_after (cs : List Change) (s : Signature) :
    (after cs).group s = (kept cs).filter fun m => m.signature == s := by
  induction cs using List.reverseRecOn with
  | nil => rfl
  | append_singleton cs c ih =>
    rw [after_append_singleton, group_apply (ordered_after cs), ih, kept_append_singleton,
      List.filter_append, List.filter_comm]

theorem mem_of_mem_kept {cs : List Change} {m : Macro} (h : m ∈ kept cs) : .add m ∈ cs := by
  induction cs with
  | nil => simp [kept] at h
  | cons c cs ih =>
    rw [kept, List.mem_append] at h
    rcases h with h | h
    · cases c with
      | add n =>
        rw [Change.added] at h
        rw [List.mem_singleton.mp (List.mem_filter.mp h).1]
        exact List.mem_cons_self
      | remove s => simp [Change.added] at h
    · exact List.mem_cons_of_mem c (ih h)

theorem mem_of_mem_group {cs : List Change} {s : Signature} {m : Macro}
    (h : m ∈ (after cs).group s) : .add m ∈ cs := by
  rw [group_after] at h
  exact mem_of_mem_kept (List.mem_filter.mp h).1

/-- A macro was defined between these changes and has not been dropped since. When it was defined,
an older one of its signature was there, and it did not take the place of that. -/
structure DefinedAfter (cs : List Change) (old new : Macro) (before later : List Change) :
    Prop where
  split : cs = before ++ .add new :: later
  stays : ∀ c ∈ later, c.drops new = false
  present : old ∈ (after before).group old.signature
  spared : (Change.add new).drops old = false

theorem definedAfter_pair {a b : Macro} {before later : List Change}
    (h : DefinedAfter [.add a, .add b] a b before later) : before = [.add a] := by
  have hsplit := h.split
  cases before with
  | nil => exact absurd h.present List.not_mem_nil
  | cons c before =>
    rw [List.cons_append, List.cons.injEq] at hsplit
    cases before with
    | nil => rw [hsplit.1]
    | cons => simp at hsplit

/-- Of two macros that are kept, the later one was defined when the earlier one was there. -/
theorem definedAfter_of_kept {cs : List Change} {a b : Macro} (h : [a, b].Sublist (kept cs)) :
    ∃ before later, DefinedAfter cs a b before later := by
  induction cs using List.reverseRecOn with
  | nil => simp [kept] at h
  | append_singleton cs c ih =>
    rw [kept_append_singleton] at h
    obtain ⟨xs, ys, hxy, hxs, hys⟩ := List.sublist_append_iff.mp h
    rcases c.sublist_added hys with rfl | ⟨m, rfl, rfl⟩
    · -- Both stood there before the last change, which dropped neither.
      rw [List.append_nil] at hxy
      subst hxy
      have hb := (List.mem_filter.mp (hxs.subset (List.mem_cons_of_mem a List.mem_cons_self))).2
      obtain ⟨before, later, hsplit, hstays, hpresent, hspared⟩ :=
        ih (hxs.trans List.filter_sublist)
      refine ⟨before, later ++ [c], by rw [hsplit]; simp, ?_, hpresent, hspared⟩
      exact List.forall_mem_append.mpr ⟨hstays, by simpa using hb⟩
    · -- The last change is the definition of the later one.
      obtain ⟨rfl, hbm⟩ : xs = [a] ∧ b = m := by
        cases xs with
        | nil => simp at hxy
        | cons x xs => cases xs <;> simp_all
      subst hbm
      obtain ⟨ha, hspared⟩ := List.mem_filter.mp (hxs.subset List.mem_cons_self)
      refine ⟨cs, [], rfl, by simp, ?_, by simpa using hspared⟩
      rw [group_after]
      exact List.mem_filter.mpr ⟨ha, beq_self_eq_true _⟩

/-! ## What is announced -/

/-- What is said of a definition that may match the same calls as older ones. -/
def overlapReport (new : Macro) (listed : List Macro) : Report :=
  ⟨.info,
    "New macro " ++ new.signature.text ++ " possibly overlaps with " ++ toString listed.length
      ++ " preexisting macro(s).\n  Preexisting macro(s):"
      ++ String.join (listed.map fun m => "\n    " ++ m.usage true)
      ++ "\n  New macro:\n    " ++ new.usage true,
    none, []⟩

/-- One piece of information that lists the overlaps, or nothing. -/
def overlapNotice (new : Macro) (listed : List Macro) : List Report :=
  if listed.isEmpty then [] else [overlapReport new listed]

theorem overlapReport_mem_overlapNotice (new : Macro) {old : Macro} {listed : List Macro}
    (h : old ∈ listed) : overlapReport new listed ∈ overlapNotice new listed := by
  have hsome : listed.isEmpty = false := List.isEmpty_eq_false_iff.mpr (List.ne_nil_of_mem h)
  rw [overlapNotice, hsome]
  exact List.mem_singleton_self _

theorem replacedReport_overlap (new : Macro) (listed : List Macro) :
    replacedReport .info "possibly overlaps with" new listed = overlapReport new listed := by
  have hverb : " possibly overlaps with " = " " ++ "possibly overlaps with" ++ " " := rfl
  have hlist : " preexisting macro(s).\n  Preexisting macro(s):"
      = " preexisting macro(s)." ++ "\n  Preexisting macro(s):" := rfl
  simp only [replacedReport, overlapReport, toString, hverb, hlist, String.append_assoc]

/-- The overloads that a definition is said to overlap with. -/
def overlapped (r : MacroRegistry) (new : Macro) : List Macro :=
  (r.group new.signature).filter fun old => !(Change.add new).drops old && new.overlaps old

theorem add_reports_eq (r : MacroRegistry) (new : Macro) :
    (r.add new).2
      = (if ((r.group new.signature).filter fun m => (Change.add new).drops m).isEmpty then []
          else [replacedReport .warning "overwrites" new
            ((r.group new.signature).filter fun m => (Change.add new).drops m)])
        ++ overlapNotice new (r.overlapped new) := by
  rw [overlapNotice, ← replacedReport_overlap]
  rfl

theorem overlapReport_mem_add {r : MacroRegistry} {old new : Macro} (h : old ∈ r.overlapped new) :
    overlapReport new (r.overlapped new) ∈ (r.add new).2 := by
  rw [add_reports_eq]
  exact List.mem_append_right _ (overlapReport_mem_overlapNotice new h)

theorem add_information (r : MacroRegistry) (new : Macro) :
    (r.add new).2.filter (fun rep => rep.severity == .info)
      = overlapNotice new (r.overlapped new) := by
  rw [add_reports_eq, List.filter_append, overlapNotice]
  split <;> split <;> rfl

end MacroRegistry

end ConfigScript
