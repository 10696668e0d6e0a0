import ConfigScript.Parser.Value
import ConfigScript.Proofs.Macro.Placed
import ConfigScript.Proofs.Parser.Outcome

/-! # Rules for readers

A judgement on parsers says what they keep up, from whatever state they are run, and what is known
of the values they give. One that allows the steps that parsers are put together from allows every
reader of values, and every value that is read stands where tokens do. -/

namespace ConfigScript

namespace Parser

/-- The steps that a judgement has to allow. The property `A` is known of the positions at which
tokens start. -/
structure Rules (A : Nat → Prop) (K : ∀ α : Type, Parser α → (α → Prop) → Prop) : Prop where
  pure {α : Type} {a : α} {Q : α → Prop} : Q a → K α (pure a) Q
  bind {α β : Type} {p : Parser α} {f : α → Parser β} {P : α → Prop} {Q : β → Prop} :
    K α p P → (∀ a, P a → K β (f a) Q) → K β (p >>= f) Q
  loop {α : Type} {step : α → Parser (Turn α)} {I : α → Prop} {a : α} :
    (∀ a, I a → K _ (step a) fun r => r.Meets I I) → I a → K α (loop step a) I
  next (skipBreaks : Bool) (mode : ReadMode) : K _ (next skipBreaks mode) fun t => A t.start
  discard : K _ discard fun _ => True
  rewind (again : Bool) : K _ (rewind again) fun _ => True
  bound : K _ bound fun _ => True
  exhaust : K _ exhaust fun _ => True
  levels {α : Type} {f : List Level → Parser α} {Q : α → Prop} :
    (∀ ls, K α (f ls) Q) → K α (get >>= fun s => f s.visible.operators.levels) Q
  reports {rs : List Report} : ReportsPlaced A rs → K _ (addReports rs) fun _ => True
  duplicate (key : String) {position : Nat} :
    A position → K _ (reportDuplicate key position) fun _ => True
  noteAccess (n : Node) : K _ (noteAccess n) fun _ => True
  noteLost (marks : List Nat) : K _ (noteLost marks) fun _ => True
  substitute : K _ substitute fun n => n.Placed A
  outside {α : Type} {p : Parser α} {Q : α → Prop} : K α p Q → K α (outsideTemplate p) Q
  /-- Reports are dropped for a while. -/
  skipping {α : Type} {p : Parser α} {Q : α → Prop} : K α p Q →
    K α (do
      let before := (← get).recovering
      modify fun s => { s with recovering := true }
      let found ← p
      modify fun s => { s with recovering := before }
      return found) Q
  resolveParam? {n : Node} : n.Placed A → K _ (resolveParam? n) fun m => ∀ x ∈ m, x.Placed A
  callMacro {n : Node} (kind : MacroKind) {position : Nat} :
    n.Placed A → A position → K _ (callMacro n kind position) fun m => m.Placed A

namespace Rules

open Node

variable {A : Nat → Prop} {K : ∀ α : Type, Parser α → (α → Prop) → Prop} (hK : Rules A K)
variable {α : Type} {inner operationInner : Parser (Option Node)} {operand : Parser Node}

/-- Every node that may be found is well placed. -/
def Found (A : Nat → Prop) (v : Option Node) : Prop := ∀ n ∈ v, n.Placed A

theorem found_true (v : Option Node) : Found (fun _ => True) v := fun n _ => n.placed_true

/-! ## Putting parsers together -/

include hK

omit hK in
theorem of_ite {c : Prop} [Decidable c] {p q : Parser α} {Q : α → Prop} (hp : c → K α p Q)
    (hq : ¬c → K α q Q) : K α (if c then p else q) Q := by
  split
  · exact hp ‹_›
  · exact hq ‹_›

theorem error (message : String) : K _ (Parser.error message) fun _ => True :=
  hK.reports (reportsPlaced_of_none (by simp [Report.error, Report.errorAt]))

theorem primitiveValue {token : Token} (ht : A token.start) :
    K _ (primitiveValue token) fun n => n.Placed A := by
  have hvalue : ((Node.value token.text).placedAt token.start).Placed A :=
    (placed_value _).placedAt ht
  unfold Parser.primitiveValue
  refine of_ite (fun _ => hK.pure hvalue) fun _ =>
    hK.bind (hK.resolveParam? hvalue) fun found hf => ?_
  split
  · exact hK.pure (hf _ rfl)
  · exact hK.callMacro _ hvalue ht

theorem accessorCall {a b : Node} (o : Operator) {position : Nat} (ha : a.Placed A)
    (hb : b.Placed A) (hp : A position) :
    K _ (accessorCall a b o position) fun n => n.Placed A := by
  have hcall (name : String) {items : List Node} (hi : ItemsPlaced A items) :
      ((Node.list name false items {}).placedAt position).Placed A :=
    (placed_list.mpr ⟨by simp, hi⟩ : (Node.list name false items {}).Placed A).placedAt hp
  unfold Parser.accessorCall
  refine hK.bind (hK.noteAccess b) fun _ _ => ?_
  split
  · exact hK.callMacro _ (hcall _ (itemsPlaced_singleton ha)) hp
  · have hb' := placed_object.mp hb
    exact hK.callMacro _ (hcall _ (itemsPlaced_pair ha (placed_object.mpr hb'))) hp
  · have hb' := placed_list.mp hb
    exact hK.callMacro _ (hcall _ (itemsPlaced_pair ha (placed_list.mpr hb'))) hp

theorem operatorCall (o : Operator) {operands : List Node} (h : ItemsPlaced A operands)
    {position : Nat} (hp : A position) :
    K _ (operatorCall o operands position) fun n => n.Placed A :=
  hK.callMacro _ (Placed.placedAt (placed_list.mpr ⟨by simp, h⟩) hp) hp

theorem namedValue {token : Token} (ht : A token.start) (kind : MacroKind) {n : Node}
    (hn : n.Placed A) : K _ (namedValue token kind n) (Found A) := by
  have hsome {m : Node} (hm : m.Placed A) : Found A (some m) := by simpa [Found] using hm
  unfold Parser.namedValue
  refine of_ite (fun _ => hK.pure (hsome hn)) fun _ =>
    hK.bind (hK.resolveParam? hn) fun found hf => ?_
  split
  · exact hK.pure (hsome (hf _ rfl))
  · exact hK.bind (hK.callMacro _ hn ht) fun _ hm => hK.pure (hsome hm)

/-! ## Recovery -/

theorem skipTurn (hi : K _ inner (Found A)) (mode : ReadMode) (stop : StopAt) (b : Bool) :
    K _ (skipTurn inner mode stop b) fun r => r.Meets (fun _ => True) fun _ => True := by
  unfold Parser.skipTurn
  refine hK.bind hK.discard fun _ _ => hK.bind (hK.next _ _) fun token _ => ?_
  refine of_ite (fun _ => hK.pure ?_) fun _ => of_ite (fun _ => hK.pure trivial) fun _ =>
    of_ite (fun _ => hK.pure ?_) fun _ => of_ite (fun _ => ?_) fun _ => ?_
  · split <;> trivial
  · split <;> trivial
  · exact hK.bind (hK.rewind _) fun _ _ => hK.bind (hK.outside hi) fun _ _ => hK.pure trivial
  · exact of_ite (fun _ => hK.pure trivial) fun _ => hK.pure trivial

theorem skipTo (hi : K _ inner (Found A)) (mode : ReadMode) (stop : StopAt) :
    K _ (skipTo inner mode stop) fun _ => True :=
  hK.skipping (hK.loop (fun b _ => hK.skipTurn hi mode stop b) trivial)

theorem resume (hi : K _ inner (Found A)) (mode : ReadMode) (closer : TokenKind) {a : α}
    {I : α → Prop} (ha : I a) : K _ (resume inner mode closer a) fun r => r.Meets I I :=
  hK.bind (hK.skipTo hi mode _) fun _ _ => of_ite (fun _ => hK.pure ha) fun _ => hK.pure ha

theorem passComma (mode : ReadMode) (again : Token → Bool) {a : α} {Q : α → Prop} (ha : Q a) :
    K α (Parser.discard >>= fun _ => Parser.next true mode >>= fun token =>
      if token.kind != .comma then Parser.rewind (again token) >>= fun _ => Pure.pure a
      else Pure.pure a) Q := by
  refine hK.bind hK.discard fun _ _ => hK.bind (hK.next _ _) fun token _ => ?_
  exact of_ite (fun _ => hK.bind (hK.rewind _) fun _ _ => hK.pure ha) fun _ => hK.pure ha

/-! ## Values -/

theorem expr (hi : K _ inner (Found A)) : K _ (expr inner) (Found A) := by
  unfold Parser.expr
  refine hK.bind hK.discard fun _ _ => hK.bind hi fun v hv => ?_
  split
  · exact hK.pure hv
  · refine hK.bind (hK.rewind _) fun _ _ => hK.bind (hK.next _ _) fun token ht => ?_
    refine of_ite (fun _ => hK.bind (hK.primitiveValue ht) fun n hn => hK.pure ?_) fun _ => ?_
    · simpa [Found] using hn
    · refine hK.bind (hK.error _) fun _ _ => hK.bind (hK.rewind _) fun _ _ => hK.pure ?_
      simp [Found]

theorem exprOrError (hi : K _ inner (Found A)) :
    K _ (exprOrError inner) fun n => n.Placed A := by
  refine hK.bind (hK.expr hi) fun v hv => ?_
  split
  · exact hK.pure (hv _ rfl)
  · exact hK.substitute

theorem objectSeparator (hi : K _ inner (Found A)) {props : List (String × Node)}
    (hp : PropertiesPlaced A props) : K _ (objectSeparator inner props) fun r =>
      r.Meets (PropertiesPlaced A) (PropertiesPlaced A) := by
  refine hK.bind (hK.next _ _) fun token _ => ?_
  split
  · exact hK.passComma .key (fun _ => false) hp
  · exact hK.pure hp
  · exact hK.bind (hK.error _) fun _ _ => hK.pure hp
  · exact hK.pure hp
  · exact hK.bind (hK.error _) fun _ _ => hK.resume hi _ _ hp

theorem objectProperty (hi : K _ inner (Found A)) {key : Token} (hkey : A key.start)
    {props : List (String × Node)} (hp : PropertiesPlaced A props) :
    K _ (objectProperty inner key props) fun r =>
      r.Meets (PropertiesPlaced A) (PropertiesPlaced A) := by
  refine hK.bind hK.discard fun _ _ => hK.bind (hK.next _ _) fun token _ => ?_
  refine of_ite (fun _ => ?_) fun _ => ?_
  · refine hK.bind (hK.error _) fun _ _ => hK.bind (hK.rewind _) fun _ _ => ?_
    exact hK.resume hi _ _ hp
  · have hvalue (duplicate : Bool) : K _ (Parser.exprOrError inner >>= fun value =>
        Parser.noteLost (if duplicate then value.marks else []) >>= fun _ =>
        Parser.objectSeparator inner
          (if duplicate then props else Properties.put key.text value props))
        fun r => r.Meets (PropertiesPlaced A) (PropertiesPlaced A) := by
      refine hK.bind (hK.exprOrError hi) fun value hv => hK.bind (hK.noteLost _) fun _ _ =>
        hK.objectSeparator hi ?_
      split
      · exact hp
      · exact Properties.put_placed hp hv
    exact of_ite (fun _ => hK.bind (hK.duplicate _ hkey) fun _ _ => hvalue _) fun _ => hvalue _

theorem objectEntry (hi : K _ inner (Found A)) {props : List (String × Node)}
    (hp : PropertiesPlaced A props) : K _ (objectEntry inner props) fun r =>
      r.Meets (PropertiesPlaced A) (PropertiesPlaced A) := by
  refine hK.bind (hK.next _ _) fun key hkey => ?_
  split
  · exact hK.bind (hK.error _) fun _ _ => hK.pure hp
  · exact hK.pure hp
  · exact hK.bind (hK.error _) fun _ _ => hK.pure hp
  · refine of_ite (fun _ => hK.objectProperty hi hkey hp) fun _ => ?_
    exact hK.bind (hK.error _) fun _ _ => hK.resume hi _ _ hp

theorem object (hi : K _ inner (Found A)) (name : String) {start : Nat} (hs : A start) :
    K _ (object inner name start) fun n => n.Placed A := by
  refine hK.bind (hK.loop (fun props hp => hK.objectEntry hi hp) propertiesPlaced_nil)
    fun props hp => ?_
  exact hK.pure (Placed.placedAt (placed_object.mpr ⟨by simp, hp⟩) hs)

theorem listSeparator (hi : K _ inner (Found A)) {items : List Node} (hx : ItemsPlaced A items) :
    K _ (listSeparator inner items) fun r => r.Meets (ItemsPlaced A) (ItemsPlaced A) := by
  refine hK.bind (hK.next _ _) fun token _ => ?_
  split
  · exact hK.passComma .unexpected (fun token => token.kind == .unexpected) hx
  · exact hK.pure hx
  · exact hK.bind (hK.error _) fun _ _ => hK.pure hx
  · exact hK.pure hx
  · exact hK.bind (hK.error _) fun _ _ => hK.resume hi _ _ hx

theorem listEntry (hi : K _ inner (Found A)) {items : List Node} (hx : ItemsPlaced A items) :
    K _ (listEntry inner items) fun r => r.Meets (ItemsPlaced A) (ItemsPlaced A) := by
  refine hK.bind hK.discard fun _ _ => hK.bind (hK.next _ _) fun token _ => ?_
  split
  · exact hK.bind (hK.error _) fun _ _ => hK.pure hx
  · exact hK.pure hx
  · exact hK.bind (hK.error _) fun _ _ => hK.pure hx
  · refine hK.bind (hK.rewind _) fun _ _ => hK.bind (hK.expr hi) fun found hf => ?_
    split
    · exact hK.listSeparator hi (hx.append (itemsPlaced_singleton (hf _ rfl)))
    · exact hK.listSeparator hi hx

theorem list (hi : K _ inner (Found A)) (name : String) {start : Nat} (hs : A start) :
    K _ (list inner name start) fun n => n.Placed A := by
  refine hK.bind (hK.loop (fun items hx => hK.listEntry hi hx) itemsPlaced_nil) fun items hx => ?_
  exact hK.pure (Placed.placedAt (placed_list.mpr ⟨by simp, hx⟩) hs)

/-! ## Operations -/

theorem term (hi : K _ inner (Found A)) (ho : K _ operationInner (Found A)) :
    K _ (term inner operationInner) fun n => n.Placed A := by
  refine hK.bind hK.discard fun _ _ => hK.bind ho fun found hf => ?_
  split
  · exact hK.pure (hf _ rfl)
  · refine hK.bind (hK.rewind _) fun _ _ => hK.bind (hK.next _ _) fun token ht => ?_
    refine of_ite (fun _ => hK.primitiveValue ht) fun _ => ?_
    refine hK.bind (hK.error _) fun _ _ => hK.bind (hK.rewind _) fun _ _ => ?_
    refine hK.bind (hK.skipTo hi _ _) fun found _ => ?_
    exact of_ite (fun _ => hK.bind (hK.rewind _) fun _ _ => hK.substitute) fun _ => hK.substitute

theorem operator? (l : Level) (skipBreaks : Bool) :
    K _ (operator? l skipBreaks) fun found => ∀ r ∈ found, A r.2 := by
  refine hK.bind hK.discard fun _ _ => hK.bind (hK.next _ _) fun token ht => ?_
  split
  · exact hK.pure (by simpa using ht)
  · exact hK.bind (hK.rewind _) fun _ _ => hK.pure (by simp)

theorem leftAssociative (l : Level) (hp : K _ operand fun n => n.Placed A) :
    K _ (leftAssociative l operand) fun n => n.Placed A := by
  refine hK.bind hp fun a ha => hK.loop (fun a ha => ?_) ha
  refine hK.bind (hK.operator? l false) fun found hf => ?_
  split
  · exact hK.pure ha
  · rename_i o position
    have hpos : A position := hf _ rfl
    refine hK.bind hp fun b hb => of_ite (fun _ => ?_) fun _ => ?_
    · exact hK.bind (hK.accessorCall o ha hb hpos) fun _ hn => hK.pure hn
    · exact hK.bind (hK.operatorCall o (itemsPlaced_pair ha hb) hpos) fun _ hn => hK.pure hn

theorem postfixed (l : Level) (hp : K _ operand fun n => n.Placed A) :
    K _ (postfixed l operand) fun n => n.Placed A := by
  refine hK.bind hp fun a ha => hK.loop (fun a ha => ?_) ha
  refine hK.bind (hK.operator? l false) fun found hf => ?_
  split
  · exact hK.pure ha
  · rename_i o position
    exact hK.bind (hK.operatorCall o (itemsPlaced_singleton ha) (hf _ rfl)) fun _ hn => hK.pure hn

theorem rightAssociative (l : Level) (hp : K _ operand fun n => n.Placed A) (n : Nat) :
    K _ (rightAssociative l operand n) fun n => n.Placed A := by
  induction n with
  | zero => exact hK.bind hK.exhaust fun _ _ => hK.pure (placed_value _)
  | succ n ih =>
    refine hK.bind hp fun a ha => hK.bind (hK.operator? l false) fun found hf => ?_
    split
    · exact hK.pure ha
    · rename_i o position
      exact hK.bind ih fun b hb => hK.operatorCall o (itemsPlaced_pair ha hb) (hf _ rfl)

theorem prefixed (l : Level) (hp : K _ operand fun n => n.Placed A) (n : Nat) :
    K _ (prefixed l operand n) fun n => n.Placed A := by
  induction n with
  | zero => exact hK.bind hK.exhaust fun _ _ => hK.pure (placed_value _)
  | succ n ih =>
    refine hK.bind (hK.operator? l true) fun found hf => ?_
    split
    · exact hp
    · rename_i o position
      exact hK.bind ih fun a ha => hK.operatorCall o (itemsPlaced_singleton ha) (hf _ rfl)

theorem expression {term : Parser Node} (ht : K _ term fun n => n.Placed A) (ls : List Level) :
    K _ (expression term ls) fun n => n.Placed A := by
  induction ls with
  | nil => exact ht
  | cons l ls ih =>
    unfold Parser.expression
    split
    · refine of_ite (fun _ => ?_) fun _ => hK.leftAssociative l ih
      exact hK.bind hK.bound fun _ _ => hK.rightAssociative l ih _
    · exact hK.postfixed l ih
    · exact hK.bind hK.bound fun _ _ => hK.prefixed l ih _

theorem operationSeparator {items : List Node} (hx : ItemsPlaced A items) :
    K _ (operationSeparator items) fun r => r.Meets (ItemsPlaced A) (ItemsPlaced A) := by
  refine hK.bind hK.discard fun _ _ => hK.bind (hK.next _ _) fun token _ => ?_
  split
  · exact hK.passComma .operation (fun _ => false) hx
  · exact hK.pure hx
  · exact hK.bind (hK.error _) fun _ _ => hK.pure hx
  · exact hK.pure hx
  · exact hK.bind (hK.error _) fun _ _ => hK.bind (hK.rewind _) fun _ _ => hK.pure hx

theorem operationEntry (hp : K _ operand fun n => n.Placed A) {items : List Node}
    (hx : ItemsPlaced A items) : K _ (operationEntry operand items) fun r =>
      r.Meets (ItemsPlaced A) (ItemsPlaced A) := by
  refine hK.bind hK.discard fun _ _ => hK.bind (hK.next _ _) fun token _ => ?_
  split
  · exact hK.bind (hK.error _) fun _ _ => hK.pure hx
  · exact hK.pure hx
  · exact hK.bind (hK.error _) fun _ _ => hK.pure hx
  · refine hK.bind (hK.rewind _) fun _ _ => hK.bind hp fun a ha => ?_
    exact hK.operationSeparator (hx.append (itemsPlaced_singleton ha))

theorem operationItems (hi : K _ inner (Found A)) (ho : K _ operationInner (Found A)) :
    K _ (operationItems inner operationInner) (ItemsPlaced A) :=
  hK.levels (f := fun ls => Parser.loop
      (Parser.operationEntry (Parser.expression (Parser.term inner operationInner) ls)) [])
    fun ls => hK.loop
      (fun _ hx => hK.operationEntry (hK.expression (hK.term hi ho) ls) hx) itemsPlaced_nil

theorem operation (hi : K _ inner (Found A)) (ho : K _ operationInner (Found A)) (name : String)
    {start : Nat} (hs : A start) :
    K _ (operation inner operationInner name start) fun n => n.Placed A := by
  refine hK.bind (hK.operationItems hi ho) fun items hx => ?_
  exact hK.pure (Placed.placedAt (placed_list.mpr ⟨by simp, hx⟩) hs)

omit hK in
theorem ungroup_placed {n : Node} (h : n.Placed A) : (ungroup n).Placed A := by
  unfold Parser.ungroup
  split
  · exact (placed_list.mp h).2 _ List.mem_cons_self
  · exact h

/-! ## Collections -/

theorem collection (depth : Nat) (inOperation : Bool) :
    K _ (collection depth inOperation) (Found A) := by
  induction depth generalizing inOperation with
  | zero => exact hK.bind hK.exhaust fun _ _ => hK.pure (by simp [Found])
  | succ depth ih =>
    have hsome {n : Node} (hn : n.Placed A) : Found A (some n) := by simpa [Found] using hn
    refine hK.bind hK.discard fun _ _ => hK.bind (hK.next _ _) fun token ht => ?_
    split
    · exact hK.bind (hK.object (ih false) _ ht) fun _ hn => hK.pure (hsome hn)
    · exact hK.bind (hK.list (ih false) _ ht) fun _ hn => hK.pure (hsome hn)
    · exact hK.bind (hK.operation (ih false) (ih true) _ ht) fun _ hn =>
        hK.pure (hsome (ungroup_placed hn))
    · refine of_ite (fun _ => hK.bind (hK.next _ _) fun after _ => ?_) fun _ => ?_
      · split
        · exact hK.bind (hK.object (ih false) _ ht) fun _ hn => hK.namedValue ht _ hn
        · exact hK.bind (hK.list (ih false) _ ht) fun _ hn => hK.namedValue ht _ hn
        · exact hK.bind (hK.operation (ih false) (ih true) _ ht) fun _ hn => hK.namedValue ht _ hn
        · exact hK.bind (hK.rewind _) fun _ _ => hK.pure (by simp [Found])
      · exact hK.bind (hK.rewind _) fun _ _ => hK.pure (by simp [Found])

theorem topCollection : K _ topCollection (Found A) :=
  hK.bind hK.bound fun _ _ => hK.collection _ _

theorem skipStatement (mode : ReadMode) (stop : StopAt) :
    K _ (skipStatement mode stop) fun _ => True :=
  hK.bind (hK.skipTo hK.topCollection _ _) fun _ _ => hK.pure trivial

end Rules

end Parser

end ConfigScript
