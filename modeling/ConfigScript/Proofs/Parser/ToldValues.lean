import ConfigScript.Proofs.Parser.Told

/-! # Values are told

Every reader of values keeps up what is on record, and skips only after an error. -/

namespace ConfigScript.Parser

variable {told : Bool} {inner operationInner : Parser (Option Node)}

/-! ## Recovery -/

theorem skipTurn_keeps (hi : Keeps told inner) (mode : ReadMode) (stop : StopAt) (b : Bool) :
    Keeps told (skipTurn inner mode stop b) := by
  unfold skipTurn
  refine Keeps.bind discard_keeps fun _ => Keeps.bind (next_keeps _ _) fun token => ?_
  refine Keeps.ite ?_ (Keeps.ite (Keeps.pure _) (Keeps.ite ?_ (Keeps.ite ?_ ?_)))
  · split
    · exact Keeps.pure _
    · exact Keeps.pure _
  · split
    · exact Keeps.pure _
    · exact Keeps.pure _
  · exact Keeps.bind (rewind_keeps _) fun _ => Keeps.bind hi.outside fun _ => Keeps.pure _
  · exact Keeps.ite (Keeps.pure _) (Keeps.pure _)

/-- Skipping drops reports, so an error must be on record before. -/
theorem skipTo_keeps (hi : Keeps true inner) (mode : ReadMode) (stop : StopAt) :
    Keeps true (skipTo inner mode stop) := by
  refine Keeps.get_bind fun s hs => ?_
  have hflag (b : Bool) : Keeps true (modify fun s => { s with recovering := b }) :=
    Keeps.modify fun s h => ⟨fun _ => h.recorded (.inr (.inr rfl)), h.2, h.3, h.4⟩
  refine Keeps.bind (hflag true) fun _ => Keeps.bind ?_ fun found =>
    Keeps.bind (hflag _) fun _ => Keeps.pure found
  exact Keeps.loop (fun b => skipTurn_keeps hi mode stop b) false

theorem resume_keeps {α : Type} (hi : Keeps true inner) (mode : ReadMode) (closer : TokenKind)
    (a : α) : Keeps true (resume inner mode closer a) := by
  refine Keeps.bind (skipTo_keeps hi mode _) fun found => ?_
  exact Keeps.ite (Keeps.pure _) (Keeps.pure _)

theorem passComma_keeps {α : Type} (mode : ReadMode) (again : Token → Bool) (a : α) :
    Keeps told (discard >>= fun _ => next true mode >>= fun token =>
      if token.kind != .comma then rewind (again token) >>= fun _ => pure a else pure a) := by
  refine Keeps.bind discard_keeps fun _ => Keeps.bind (next_keeps _ _) fun token => ?_
  exact Keeps.ite (Keeps.bind (rewind_keeps _) fun _ => Keeps.pure _) (Keeps.pure _)

/-! ## Values -/

theorem expr_tells (hi : ∀ told, Keeps told inner) {s : ParserState} (h : Told told s) :
    Yields (expr inner) s fun v t => Told told t ∧ (v = none → Told true t) := by
  unfold expr
  refine Yields.bind (discard_keeps s h) fun _ t ht => Yields.bind (hi told t ht) fun v u hu => ?_
  cases v with
  | some value => exact Yields.of_pure ⟨hu, by simp⟩
  | none =>
    refine Yields.bind (rewind_keeps _ u hu) fun _ v hv => ?_
    refine Yields.bind (next_keeps _ _ v hv) fun token w hw => ?_
    refine Yields.of_ite (fun _ => ?_) fun _ => ?_
    · exact Yields.bind (primitiveValue_keeps token w hw) fun n x hx => Yields.of_pure ⟨hx, by simp⟩
    · refine Yields.bind (error_tells _ told w hw) fun _ x hx => ?_
      refine Yields.bind (rewind_keeps _ x hx) fun _ y hy => Yields.of_pure ⟨hy.weaken, fun _ => hy⟩

theorem exprOrError_keeps (hi : ∀ told, Keeps told inner) : Keeps told (exprOrError inner) := by
  intro s h
  refine Yields.bind (expr_tells hi h) fun v t ht => ?_
  cases v with
  | some value => exact Yields.of_pure ht.1
  | none => exact (substitute_keeps t (ht.2 rfl)).mono fun _ _ hu => hu.weaken

theorem expr_keeps (hi : ∀ told, Keeps told inner) : Keeps told (expr inner) :=
  fun _ h => (expr_tells hi h).mono fun _ _ ht => ht.1

theorem reportDuplicate_keeps (key : String) (position : Nat) :
    Keeps told (reportDuplicate key position) :=
  Keeps.get_bind fun _ _ => report_keeps _

theorem objectSeparator_keeps (hi : ∀ told, Keeps told inner) (props : List (String × Node)) :
    Keeps told (objectSeparator inner props) := by
  refine Keeps.bind (next_keeps _ _) fun token => ?_
  split
  · exact passComma_keeps .key (fun _ => false) _
  · exact Keeps.pure _
  · exact Tells.bind (error_tells _) fun _ => Keeps.pure _
  · exact Keeps.pure _
  · exact Tells.bind (error_tells _) fun _ => resume_keeps (hi true) _ _ _

theorem objectProperty_keeps (hi : ∀ told, Keeps told inner) (key : Token)
    (props : List (String × Node)) : Keeps told (objectProperty inner key props) := by
  refine Keeps.bind discard_keeps fun _ => Keeps.bind (next_keeps _ _) fun token => ?_
  refine Keeps.ite ?_ ?_
  · refine Tells.bind (error_tells _) fun _ => Keeps.bind (rewind_keeps _) fun _ => ?_
    exact resume_keeps (hi true) _ _ _
  · have hvalue (duplicate : Bool) : Keeps told (exprOrError inner >>= fun value =>
        noteLost (if duplicate then value.marks else []) >>= fun _ => objectSeparator inner
          (if duplicate then props else Properties.put key.text value props)) :=
      Keeps.bind (exprOrError_keeps hi) fun _ => Keeps.bind (noteLost_keeps _) fun _ =>
        objectSeparator_keeps hi _
    exact Keeps.ite (Keeps.bind (reportDuplicate_keeps _ _) fun _ => hvalue _) (hvalue _)

theorem objectEntry_keeps (hi : ∀ told, Keeps told inner) (props : List (String × Node)) :
    Keeps told (objectEntry inner props) := by
  refine Keeps.bind (next_keeps _ _) fun key => ?_
  split
  · exact Tells.bind (error_tells _) fun _ => Keeps.pure _
  · exact Keeps.pure _
  · exact Tells.bind (error_tells _) fun _ => Keeps.pure _
  · refine Keeps.ite (objectProperty_keeps hi key props) ?_
    exact Tells.bind (error_tells _) fun _ => resume_keeps (hi true) _ _ _

theorem object_keeps (hi : ∀ told, Keeps told inner) (name : String) (start : Nat) :
    Keeps told (object inner name start) :=
  Keeps.bind (Keeps.loop (objectEntry_keeps hi) _) fun _ => Keeps.pure _

theorem listSeparator_keeps (hi : ∀ told, Keeps told inner) (items : List Node) :
    Keeps told (listSeparator inner items) := by
  refine Keeps.bind (next_keeps _ _) fun token => ?_
  split
  · exact passComma_keeps .unexpected (fun token => token.kind == .unexpected) _
  · exact Keeps.pure _
  · exact Tells.bind (error_tells _) fun _ => Keeps.pure _
  · exact Keeps.pure _
  · exact Tells.bind (error_tells _) fun _ => resume_keeps (hi true) _ _ _

theorem listEntry_keeps (hi : ∀ told, Keeps told inner) (items : List Node) :
    Keeps told (listEntry inner items) := by
  refine Keeps.bind discard_keeps fun _ => Keeps.bind (next_keeps _ _) fun token => ?_
  split
  · exact Tells.bind (error_tells _) fun _ => Keeps.pure _
  · exact Keeps.pure _
  · exact Tells.bind (error_tells _) fun _ => Keeps.pure _
  · refine Keeps.bind (rewind_keeps _) fun _ => Keeps.bind (expr_keeps hi) fun found => ?_
    split
    · exact listSeparator_keeps hi _
    · exact listSeparator_keeps hi _

theorem list_keeps (hi : ∀ told, Keeps told inner) (name : String) (start : Nat) :
    Keeps told (list inner name start) :=
  Keeps.bind (Keeps.loop (listEntry_keeps hi) _) fun _ => Keeps.pure _

/-! ## Operations -/

theorem term_keeps (hi : ∀ told, Keeps told inner) (ho : ∀ told, Keeps told operationInner) :
    Keeps told (term inner operationInner) := by
  refine Keeps.bind discard_keeps fun _ => Keeps.bind (ho told) fun found => ?_
  split
  · exact Keeps.pure _
  · refine Keeps.bind (rewind_keeps _) fun _ => Keeps.bind (next_keeps _ _) fun token => ?_
    refine Keeps.ite (primitiveValue_keeps token) ?_
    refine Tells.bind (error_tells _) fun _ => Keeps.bind (rewind_keeps _) fun _ => ?_
    refine Keeps.bind (skipTo_keeps (hi true) _ _) fun found => ?_
    exact Keeps.ite (Keeps.bind (rewind_keeps _) fun _ => substitute_keeps) substitute_keeps

theorem operator?_keeps (l : Level) (skipBreaks : Bool) : Keeps told (operator? l skipBreaks) := by
  refine Keeps.bind discard_keeps fun _ => Keeps.bind (next_keeps _ _) fun token => ?_
  split
  · exact Keeps.pure _
  · exact Keeps.bind (rewind_keeps _) fun _ => Keeps.pure _

variable {operand : Parser Node}

theorem leftAssociative_keeps (l : Level) (hp : Keeps told operand) :
    Keeps told (leftAssociative l operand) := by
  refine Keeps.bind hp fun a => Keeps.loop (fun a => ?_) a
  refine Keeps.bind (operator?_keeps l false) fun found => ?_
  split
  · exact Keeps.pure _
  · refine Keeps.bind hp fun b => Keeps.ite ?_ ?_
    · exact Keeps.bind (accessorCall_keeps _ _ _ _) fun _ => Keeps.pure _
    · exact Keeps.bind (callMacro_keeps _ _ _) fun _ => Keeps.pure _

theorem postfixed_keeps (l : Level) (hp : Keeps told operand) :
    Keeps told (postfixed l operand) := by
  refine Keeps.bind hp fun a => Keeps.loop (fun a => ?_) a
  refine Keeps.bind (operator?_keeps l false) fun found => ?_
  split
  · exact Keeps.pure _
  · exact Keeps.bind (callMacro_keeps _ _ _) fun _ => Keeps.pure _

theorem rightAssociative_keeps (l : Level) (hp : Keeps told operand) (n : Nat) :
    Keeps told (rightAssociative l operand n) := by
  induction n with
  | zero => exact Keeps.bind exhaust_keeps fun _ => Keeps.pure _
  | succ n ih =>
    refine Keeps.bind hp fun a => Keeps.bind (operator?_keeps l false) fun found => ?_
    split
    · exact Keeps.pure _
    · exact Keeps.bind ih fun _ => callMacro_keeps _ _ _

theorem prefixed_keeps (l : Level) (hp : Keeps told operand) (n : Nat) :
    Keeps told (prefixed l operand n) := by
  induction n with
  | zero => exact Keeps.bind exhaust_keeps fun _ => Keeps.pure _
  | succ n ih =>
    refine Keeps.bind (operator?_keeps l true) fun found => ?_
    split
    · exact hp
    · exact Keeps.bind ih fun _ => callMacro_keeps _ _ _

theorem expression_keeps {term : Parser Node} (ht : Keeps told term) (ls : List Level) :
    Keeps told (expression term ls) := by
  induction ls with
  | nil => exact ht
  | cons l ls ih =>
    unfold expression
    split
    · refine Keeps.ite (Keeps.get_bind fun _ _ => ?_) (leftAssociative_keeps l ih)
      exact rightAssociative_keeps l ih _
    · exact postfixed_keeps l ih
    · exact Keeps.get_bind fun _ _ => prefixed_keeps l ih _

theorem operationSeparator_keeps (items : List Node) :
    Keeps told (operationSeparator items) := by
  refine Keeps.bind discard_keeps fun _ => Keeps.bind (next_keeps _ _) fun token => ?_
  split
  · exact passComma_keeps .operation (fun _ => false) _
  · exact Keeps.pure _
  · exact Tells.bind (error_tells _) fun _ => Keeps.pure _
  · exact Keeps.pure _
  · exact Tells.bind (error_tells _) fun _ => Keeps.bind (rewind_keeps _) fun _ => Keeps.pure _

theorem operationEntry_keeps (hp : Keeps told operand) (items : List Node) :
    Keeps told (operationEntry operand items) := by
  refine Keeps.bind discard_keeps fun _ => Keeps.bind (next_keeps _ _) fun token => ?_
  split
  · exact Tells.bind (error_tells _) fun _ => Keeps.pure _
  · exact Keeps.pure _
  · exact Tells.bind (error_tells _) fun _ => Keeps.pure _
  · refine Keeps.bind (rewind_keeps _) fun _ => Keeps.bind hp fun a => ?_
    exact operationSeparator_keeps _

theorem operation_keeps (hi : ∀ told, Keeps told inner) (ho : ∀ told, Keeps told operationInner)
    (name : String) (start : Nat) : Keeps told (operation inner operationInner name start) := by
  refine Keeps.bind (Keeps.get_bind fun _ _ => Keeps.loop (fun items => ?_) _) fun _ => Keeps.pure _
  exact operationEntry_keeps (expression_keeps (term_keeps hi ho) _) items

/-! ## Collections -/

theorem collection_keeps (depth : Nat) (inOperation : Bool) :
    Keeps told (collection depth inOperation) := by
  induction depth generalizing inOperation told with
  | zero => exact Keeps.bind exhaust_keeps fun _ => Keeps.pure _
  | succ depth ih =>
    have hi : ∀ told, Keeps told (collection depth false) := fun _ => ih false
    have ho : ∀ told, Keeps told (collection depth true) := fun _ => ih true
    refine Keeps.bind discard_keeps fun _ => Keeps.bind (next_keeps _ _) fun token => ?_
    split
    · exact Keeps.bind (object_keeps hi _ _) fun _ => Keeps.pure _
    · exact Keeps.bind (list_keeps hi _ _) fun _ => Keeps.pure _
    · exact Keeps.bind (operation_keeps hi ho _ _) fun _ => Keeps.pure _
    · refine Keeps.ite (Keeps.bind (next_keeps _ _) fun after => ?_) ?_
      · split
        · exact Keeps.bind (object_keeps hi _ _) fun _ => namedValue_keeps _ _ _
        · exact Keeps.bind (list_keeps hi _ _) fun _ => namedValue_keeps _ _ _
        · exact Keeps.bind (operation_keeps hi ho _ _) fun _ => namedValue_keeps _ _ _
        · exact Keeps.bind (rewind_keeps _) fun _ => Keeps.pure _
      · exact Keeps.bind (rewind_keeps _) fun _ => Keeps.pure _

theorem topCollection_keeps : Keeps told topCollection :=
  Keeps.get_bind fun _ _ => collection_keeps _ _

theorem skipStatement_keeps (mode : ReadMode) (stop : StopAt) :
    Keeps true (skipStatement mode stop) :=
  Keeps.bind (skipTo_keeps topCollection_keeps _ _) fun _ => Keeps.pure _

end ConfigScript.Parser
