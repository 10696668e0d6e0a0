import ConfigScript.Parser.OperatorStatement
import ConfigScript.Proofs.Number.Characters
import ConfigScript.Proofs.Operator.Valid
import Mathlib.Tactic.ByContra

/-! # Written operators

The statement of an operator, part by part, and the clause that it comes to. A checked operator is
created again from the clause, whether its priority is written or left out. -/

namespace ConfigScript

open Text

namespace Number

theorem twoPow_63 : twoPow 63 = 9223372036854775808 := by decide +kernel

theorem eq_of_numericKey {x y : Number} (h : x.numericKey = y.numericKey)
    (hy : y.numericKey ≠ 0) : x = y := by
  have hx := x.bits.toNat_lt
  have hy' := y.bits.toNat_lt
  suffices hbits : x.bits.toNat = y.bits.toNat by
    cases x
    cases y
    exact congrArg Number.mk (UInt64.toNat_inj.mp hbits)
  unfold numericKey isNegative magnitude at h hy
  simp only [twoPow_63, decide_eq_true_eq] at h hy
  split at h <;> split at h <;> omega

theorem eq_of_eq {x y : Number} (h : x.eq y = true) (hy : y.numericKey ≠ 0) : x = y := by
  simp only [Number.eq, Bool.and_eq_true, beq_iff_eq] at h
  exact eq_of_numericKey h.2 hy

end Number

theorem Fixity.defaultPriority_ne_zero (f : Fixity) : f.defaultPriority.numericKey ≠ 0 := by
  cases f <;> decide +kernel

theorem Fixity.defaultPriority_isNaN (f : Fixity) : f.defaultPriority.isNaN = false := by
  cases f <;> decide +kernel

namespace Operator

variable {o : Operator}

/-! ## Creation -/

/-- What a definition has to be like. -/
structure Sound (name : String) (fixity : Fixity) (property : OperatorProperty) : Prop where
  nonempty : name.isEmpty = false
  unbroken : name.toList.any isBlank = false
  plain : fixity ≠ .binary → property = .plain

theorem create_eq_ok_iff {name : String} {keyword : Bool} {fixity : Fixity}
    {substitute : Option String} {property : OperatorProperty} {priority : Option Number} :
    create name keyword fixity substitute property priority = .ok o
      ↔ Sound name fixity property ∧ o = ⟨name, keyword, fixity, substitute, property,
        (priority.filter fun p => !p.isNaN).getD fixity.defaultPriority⟩ := by
  unfold create
  split
  · rename_i h
    exact ⟨by simp, fun hs => absurd hs.1.nonempty (by simp [h])⟩
  · split
    · rename_i h
      exact ⟨by simp, fun hs => absurd hs.1.unbroken (by simp [h])⟩
    · split
      · rename_i h
        exact ⟨by simp, fun hs => absurd (hs.1.plain h.1) h.2⟩
      · rename_i hname hblank hplain
        have hsound : Sound name fixity property := by
          refine ⟨Bool.eq_false_iff.mpr hname, Bool.eq_false_iff.mpr hblank, fun hf => ?_⟩
          by_contra hp
          exact hplain ⟨hf, hp⟩
        simp [hsound, eq_comm]

theorem Valid.sound (h : o.Valid) : Sound o.name o.fixity o.property := by
  obtain ⟨priority, hc⟩ := h
  exact (create_eq_ok_iff.mp hc).1

theorem Valid.priority (h : o.Valid) : o.priority.isNaN = false := by
  obtain ⟨priority, hc⟩ := h
  have ho := congrArg Operator.priority (create_eq_ok_iff.mp hc).2
  simp only at ho
  rw [ho]
  cases hp : priority.filter fun p => !p.isNaN with
  | none => exact Fixity.defaultPriority_isNaN _
  | some p => simpa using (Option.filter_eq_some_iff.mp hp).2

/-- The priority as it is written: not at all, if it is the default one. -/
def writtenPriority (o : Operator) : Option Number :=
  if o.priority.eq o.fixity.defaultPriority then none else some o.priority

theorem Valid.create_written (h : o.Valid) :
    create o.name o.keyword o.fixity o.substitute o.property o.writtenPriority = .ok o := by
  refine create_eq_ok_iff.mpr ⟨h.sound, ?_⟩
  have hpriority : o.priority
      = (o.writtenPriority.filter fun p => !p.isNaN).getD o.fixity.defaultPriority := by
    unfold writtenPriority
    split
    · rename_i he
      exact Number.eq_of_eq he (Fixity.defaultPriority_ne_zero _)
    · simp [Option.filter, h.priority]
  rw [← hpriority]

/-- The clause that the operator is written with. -/
def clause (o : Operator) : Parser.OperatorClause := ⟨o.fixity, o.property, o.writtenPriority⟩

/-! ## Text -/

def statementWord (o : Operator) : String := if o.keyword then "keyword" else "operator"

def propertyChars (o : Operator) : List Char :=
  match o.property with
  | .plain => []
  | p => ' ' :: p.label.toList

def priorityChars (o : Operator) : List Char :=
  match o.writtenPriority with
  | none => []
  | some p => ' ' :: '(' :: (p.text.toList ++ [')'])

def aliasChars (o : Operator) : List Char :=
  match o.substitute with
  | none => []
  | some a => ' ' :: ':' :: ' ' :: (writeValue a).toList

/-- What stands after the name. -/
def clauseChars (o : Operator) : List Char :=
  ' ' :: ("as".toList ++ ' ' :: (o.fixity.label.toList
    ++ (o.propertyChars ++ (o.priorityChars ++ o.aliasChars))))

theorem toList_text (o : Operator) :
    o.text.toList
      = o.statementWord.toList ++ ' ' :: ((writeValue o.name).toList ++ o.clauseChars) := by
  have hword : (if o.keyword then "keyword " else "operator ").toList
      = o.statementWord.toList ++ [' '] := by
    unfold statementWord
    split <;> rfl
  have hpriority : (if o.priority.eq o.fixity.defaultPriority then ""
      else s!" ({o.priority.text})").toList = o.priorityChars := by
    unfold priorityChars writtenPriority
    split <;> simp [toString]
  have has : " as ".toList = ' ' :: ("as".toList ++ [' ']) := rfl
  unfold text clauseChars propertyChars aliasChars
  simp only [String.toList_append, hword, hpriority, has, List.append_assoc, List.cons_append,
    List.nil_append]
  cases o.property <;> cases o.substitute <;> simp

theorem bare_statementWord (o : Operator) : Bare o.statementWord.toList := by
  unfold statementWord
  split
  · exact (by decide : Bare "keyword".toList)
  · exact (by decide : Bare "operator".toList)

end Operator

theorem Fixity.bare_label (f : Fixity) : Bare f.label.toList := by
  cases f <;> decide

theorem OperatorProperty.bare_label (p : OperatorProperty) : Bare p.label.toList := by
  cases p <;> decide

namespace Operator

theorem text_inLine (o : Operator) : ∀ c ∈ o.text.toList, InLine c := by
  have hbare {cs : List Char} (h : Bare cs) : ∀ c ∈ cs, InLine c := fun c hc => (h c hc).inLine
  have hwritten (s : String) : ∀ c ∈ (writeValue s).toList, InLine c :=
    fun _ => (written_writeValue s).inLine
  have hsigns : InLine ' ' ∧ InLine ':' ∧ InLine '(' ∧ InLine ')' := by simp [InLine]
  have hproperty : ∀ c ∈ o.propertyChars, InLine c := by
    unfold propertyChars
    split
    · simp
    · exact List.forall_mem_cons.mpr ⟨hsigns.1, hbare (OperatorProperty.bare_label _)⟩
  have hpriority : ∀ c ∈ o.priorityChars, InLine c := by
    unfold priorityChars
    split
    · simp
    · rename_i p _
      simp only [List.forall_mem_cons, List.forall_mem_append]
      exact ⟨hsigns.1, hsigns.2.2.1, hbare p.bare_text, hsigns.2.2.2, by simp⟩
  have halias : ∀ c ∈ o.aliasChars, InLine c := by
    unfold aliasChars
    split
    · simp
    · simp only [List.forall_mem_cons]
      exact ⟨hsigns.1, hsigns.2.1, hsigns.1, hwritten _⟩
  rw [toList_text, clauseChars]
  simp only [List.forall_mem_cons, List.forall_mem_append]
  exact ⟨hbare o.bare_statementWord, hsigns.1, hwritten o.name, hsigns.1,
    hbare (by decide : Bare "as".toList), hsigns.1, hbare (Fixity.bare_label _), hproperty,
    hpriority, halias⟩

end Operator

end ConfigScript
