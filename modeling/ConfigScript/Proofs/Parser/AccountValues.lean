import ConfigScript.Proofs.Parser.Account

/-! # Values are accounted for

Every reader of values accounts for the marks that it gives, and what is skipped leaves none. -/

namespace ConfigScript.Parser

variable {α : Type} {inner operationInner : Parser (Option Node)} {operand : Parser Node}
variable {before : List Node}

theorem Accounts.after {β γ : Type} {p : Parser β} {g : β → Parser γ} {done : γ → List Node}
    (hp : Moves Aside p) (hg : ∀ b, Accounts (g b) before done) :
    Accounts (p >>= g) before done :=
  Accounts.bind (.aside hp) hg

/-- What is read with nodes in hand comes behind them. -/
theorem Accounts.behind {β : Type} {p : Parser β} {after : β → List Node} (hp : Accounts p [] after)
    (held : List Node) : Accounts p held fun b => held ++ after b := by
  have h := hp.frame held
  rwa [List.append_nil] at h

/-! ## Recovery -/

theorem skipTurn_aside (hi : Accounts inner [] Option.toList) (mode : ReadMode) (stop : StopAt)
    (b : Bool) : Moves Aside (skipTurn inner mode stop b) := by
  unfold skipTurn
  refine Moves.bind discard_aside fun _ => Moves.bind (next_aside _ _) fun token => ?_
  refine Moves.ite ?_ (Moves.ite (Moves.pure _) (Moves.ite ?_ (Moves.ite ?_ ?_)))
  · split
    · exact Moves.pure _
    · exact Moves.pure _
  · split
    · exact Moves.pure _
    · exact Moves.pure _
  · exact Moves.bind (rewind_aside _) fun _ => Moves.bind hi.outside fun _ => Moves.pure _
  · exact Moves.ite (Moves.pure _) (Moves.pure _)

theorem skipTo_aside (hi : Accounts inner [] Option.toList) (mode : ReadMode) (stop : StopAt) :
    Moves Aside (skipTo inner mode stop) := by
  have hloop := Moves.loop exhaust_aside (skipTurn_aside hi mode stop) false
  refine fun s => Yields.get_bind (Yields.modify_bind (Yields.bind (hloop _) fun _ t ht => ?_))
  have h := ht.grown
  refine Yields.modify_bind (Yields.of_pure ⟨?_, ht.template, ht.lost⟩)
  exact ⟨h.1, rfl, h.3, h.4, h.5, h.6, h.7, h.8, fun _ => h.9 rfl, h.10, h.11⟩

theorem resume_accounts (hi : Accounts inner [] Option.toList) (mode : ReadMode)
    (closer : TokenKind) (a : α) (nodes : α → List Node) :
    Accounts (resume inner mode closer a) (nodes a) fun r => nodes r.value :=
  .after (skipTo_aside hi mode _) fun _ =>
    .ite (fun _ => Accounts.pure rfl) fun _ => Accounts.pure rfl

theorem passComma_accounts (mode : ReadMode) (again : Token → Bool) (a : α)
    (nodes : α → List Node) :
    Accounts (discard >>= fun _ => next true mode >>= fun token =>
      if token.kind != .comma then rewind (again token) >>= fun _ => pure (Turn.again a)
      else pure (Turn.again a)) (nodes a) fun r => nodes r.value :=
  .after discard_aside fun _ => .after (next_aside _ _) fun _ =>
    .ite (fun _ => .after (rewind_aside _) fun _ => Accounts.pure rfl) fun _ => Accounts.pure rfl

theorem error_turn_accounts (message : String) (r : Turn α) (nodes : α → List Node) :
    Accounts (error message >>= fun _ => pure r) (nodes r.value) fun r => nodes r.value :=
  .after (error_aside _) fun _ => Accounts.pure rfl

/-! ## Values -/

theorem substitute_accounts : Accounts substitute [] fun n => [n] := by
  intro s
  have hvalue : Account s s [] [Node.errorValue] :=
    .regroup s (fun _ => List.forall_mem_singleton.mpr trivial) rfl
  exact hvalue.trans ((substitute_aside s).account _)

theorem expr_accounts (hi : Accounts inner [] Option.toList) :
    Accounts (expr inner) [] Option.toList := by
  refine .after discard_aside fun _ => Accounts.bind hi fun found => ?_
  cases found with
  | some value => exact Accounts.pure rfl
  | none =>
    refine .after (rewind_aside _) fun _ => .after (next_aside _ _) fun token => ?_
    refine .ite (fun _ => ?_) fun _ => ?_
    · exact Accounts.bind (primitiveValue_accounts token) fun n => Accounts.pure rfl
    · exact .after (error_aside _) fun _ => .after (rewind_aside _) fun _ => Accounts.pure rfl

theorem exprOrError_accounts (hi : Accounts inner [] Option.toList) :
    Accounts (exprOrError inner) [] fun n => [n] := by
  refine Accounts.bind (expr_accounts hi) fun found => ?_
  cases found with
  | some value => exact Accounts.pure rfl
  | none => exact substitute_accounts

/-! ## Objects -/

/-- The properties read so far, as an object. -/
def asObject (props : List (String × Node)) : List Node := [.object "" props {}]

theorem markedIn_asObject (props : List (String × Node)) :
    markedIn (asObject props) = props.flatMap fun p => p.2.marked := by
  rw [asObject, markedIn_singleton]
  exact Node.marked_object_of_unmarked (i := {}) rfl "" props

theorem objectSeparator_accounts (hi : Accounts inner [] Option.toList)
    (props : List (String × Node)) :
    Accounts (objectSeparator inner props) (asObject props) fun r => asObject r.value := by
  refine .after (next_aside _ _) fun token => ?_
  split
  · exact passComma_accounts .key (fun _ => false) props asObject
  · exact Accounts.pure rfl
  · exact error_turn_accounts _ (.done props) asObject
  · exact Accounts.pure rfl
  · exact .after (error_aside _) fun _ => resume_accounts hi _ _ props asObject

theorem keyedProperties_append {ps qs : List (String × Node)} (hp : Node.KeyedProperties ps)
    (hq : Node.KeyedProperties qs) : Node.KeyedProperties (ps ++ qs) := by
  induction ps with
  | nil => exact hq
  | cons p ps ih =>
    rw [Node.KeyedProperties] at hp
    exact ⟨hp.1, ih hp.2⟩

theorem putProperty_accounts {key : String} {props : List (String × Node)}
    (hkey : key ∉ Properties.keys props) (value : Node) (s : ParserState) :
    Account s s (asObject props ++ [value]) (asObject (Properties.put key value props)) := by
  rw [Properties.put_append hkey]
  refine .regroup s (fun h => ?_) ?_
  · obtain ⟨hobject, hvalue⟩ := List.forall_mem_append.mp h
    have hprops : (Node.object "" props {}).Keyed := hobject _ List.mem_cons_self
    rw [Node.Keyed] at hprops
    refine List.forall_mem_singleton.mpr ⟨?_, keyedProperties_append hprops.2 ⟨?_, trivial⟩⟩
    · rw [Properties.keys, List.map_append]
      refine List.nodup_append.mpr ⟨hprops.1, List.nodup_singleton _, fun k hk l hl heq => ?_⟩
      rw [heq, List.mem_singleton.mp hl] at hk
      exact hkey hk
    · exact hvalue value List.mem_cons_self
  · rw [markedIn_append, markedIn_asObject, markedIn_asObject, List.flatMap_append,
      markedIn_singleton, List.flatMap_singleton]

theorem dropProperty_accounts (props : List (String × Node)) (value : Node) :
    Accounts (noteLost value.marks) (asObject props ++ [value]) fun _ => asObject props := by
  refine fun s => .leave (noteLost_extends _ s) rfl rfl (fun h => ?_) ?_ ?_
  · exact (List.forall_mem_append.mp h).1
  · rw [markedIn_append]
    exact List.sublist_append_left _ _
  · rw [markedIn_append, markedIn_singleton, Node.marks_eq_map, List.length_append, List.length_map]

theorem objectProperty_accounts (hi : Accounts inner [] Option.toList) (key : Token)
    (props : List (String × Node)) :
    Accounts (objectProperty inner key props) (asObject props) fun r => asObject r.value := by
  refine .after discard_aside fun _ => .after (next_aside _ _) fun token => ?_
  refine .ite (fun _ => ?_) fun _ => ?_
  · exact .after (error_aside _) fun _ => .after (rewind_aside _) fun _ =>
      resume_accounts hi _ _ props asObject
  · cases hdup : Properties.contains key.text props with
    | true =>
      refine .after (reportDuplicate_aside _ _) fun _ => ?_
      refine Accounts.bind ((exprOrError_accounts hi).behind _) fun value => ?_
      exact Accounts.bind (dropProperty_accounts props value) fun _ =>
        objectSeparator_accounts hi props
    | false =>
      have hkey : key.text ∉ Properties.keys props := fun hmem => by
        simp [Properties.contains_iff.mpr hmem] at hdup
      refine Accounts.bind ((exprOrError_accounts hi).behind _) fun value => ?_
      refine fun s => Yields.bind (P := fun _ t => t = s) ?_ fun _ t ht => ?_
      · change Yields (noteLost []) s _
        rw [noteLost_nil]
        exact rfl
      · subst ht
        exact (objectSeparator_accounts hi _ t).mono fun r u hu =>
          (putProperty_accounts hkey value t).trans hu

theorem objectEntry_accounts (hi : Accounts inner [] Option.toList)
    (props : List (String × Node)) :
    Accounts (objectEntry inner props) (asObject props) fun r => asObject r.value := by
  refine .after (next_aside _ _) fun key => ?_
  split
  · exact error_turn_accounts _ (.done props) asObject
  · exact Accounts.pure rfl
  · exact error_turn_accounts _ (.again props) asObject
  · refine .ite (fun _ => objectProperty_accounts hi key props) fun _ => ?_
    exact .after (error_aside _) fun _ => resume_accounts hi _ _ props asObject

theorem object_accounts (hi : Accounts inner [] Option.toList) (name : String) (start : Nat) :
    Accounts (object inner name start) [] fun n => [n] := by
  have hempty (s : ParserState) : Account s s [] (asObject []) :=
    .regroup s (fun _ => List.forall_mem_singleton.mpr ⟨List.nodup_nil, trivial⟩) rfl
  have hentries : Accounts (loop (objectEntry inner) []) [] asObject := fun s =>
    (Accounts.loop _ (objectEntry_accounts hi) [] s).mono fun _ _ ht => (hempty s).trans ht
  refine Accounts.bind hentries fun props => Accounts.regroup (fun h => ?_) ?_
  · have hprops : (Node.object "" props {}).Keyed := h _ List.mem_cons_self
    exact List.forall_mem_singleton.mpr hprops
  · rw [markedIn_asObject, markedIn_singleton]
    exact Node.marked_object_of_unmarked (i := { position := some start }) rfl name props

/-! ## Lists -/

theorem listSeparator_accounts (hi : Accounts inner [] Option.toList) (items : List Node) :
    Accounts (listSeparator inner items) items Turn.value := by
  refine .after (next_aside _ _) fun token => ?_
  split
  · exact passComma_accounts .unexpected (fun token => token.kind == .unexpected) items id
  · exact Accounts.pure rfl
  · exact error_turn_accounts _ (.done items) id
  · exact Accounts.pure rfl
  · exact .after (error_aside _) fun _ => resume_accounts hi _ _ items id

theorem listEntry_accounts (hi : Accounts inner [] Option.toList) (items : List Node) :
    Accounts (listEntry inner items) items Turn.value := by
  refine .after discard_aside fun _ => .after (next_aside _ _) fun token => ?_
  split
  · exact error_turn_accounts _ (.done items) id
  · exact Accounts.pure rfl
  · exact error_turn_accounts _ (.again items) id
  · refine .after (rewind_aside _) fun _ =>
      Accounts.bind ((expr_accounts hi).behind items) fun found => ?_
    cases found with
    | some value => exact listSeparator_accounts hi _
    | none =>
      rw [Option.toList_none, List.append_nil]
      exact listSeparator_accounts hi items

theorem listed_accounts (name : String) (op : Bool) (items : List Node) (start : Nat) :
    Accounts (pure ((Node.list name op items {}).placedAt start)) items fun n => [n] :=
  fun s => Yields.of_pure (Account.listed s name op items start)

theorem list_accounts (hi : Accounts inner [] Option.toList) (name : String) (start : Nat) :
    Accounts (list inner name start) [] fun n => [n] :=
  Accounts.bind (Accounts.loop id (listEntry_accounts hi) []) fun items =>
    listed_accounts name false items start

/-! ## Operations -/

theorem term_accounts (hi : Accounts inner [] Option.toList)
    (ho : Accounts operationInner [] Option.toList) :
    Accounts (term inner operationInner) [] fun n => [n] := by
  refine .after discard_aside fun _ => Accounts.bind ho fun found => ?_
  cases found with
  | some value => exact Accounts.pure rfl
  | none =>
    refine .after (rewind_aside _) fun _ => .after (next_aside _ _) fun token => ?_
    refine .ite (fun _ => primitiveValue_accounts token) fun _ => ?_
    refine .after (error_aside _) fun _ => .after (rewind_aside _) fun _ => ?_
    refine .after (skipTo_aside hi _ _) fun found => ?_
    exact .ite (fun _ => .after (rewind_aside _) fun _ => substitute_accounts) fun _ =>
      substitute_accounts

theorem operator?_aside (l : Level) (skipBreaks : Bool) : Moves Aside (operator? l skipBreaks) := by
  refine Moves.bind discard_aside fun _ => Moves.bind (next_aside _ _) fun token => ?_
  split
  · exact Moves.pure _
  · exact Moves.bind (rewind_aside _) fun _ => Moves.pure _

theorem again_accounts {p : Parser Node} (hp : Accounts p before fun n => [n]) :
    Accounts (p >>= fun n => pure (Turn.again n)) before fun r => [r.value] :=
  Accounts.bind hp fun _ => Accounts.pure rfl

theorem leftAssociative_accounts (l : Level) (hp : Accounts operand [] fun n => [n]) :
    Accounts (leftAssociative l operand) [] fun n => [n] := by
  refine Accounts.bind hp fun a => Accounts.loop (fun n => [n]) (fun a => ?_) a
  refine .after (operator?_aside l false) fun found => ?_
  split
  · exact Accounts.pure rfl
  · rename_i o position
    refine Accounts.bind (hp.behind [a]) fun b => .ite (fun _ => ?_) fun _ => ?_
    · exact again_accounts (accessorCall_accounts a b o position)
    · exact again_accounts (operatorCall_accounts o [a, b] position)

theorem postfixed_accounts (l : Level) (hp : Accounts operand [] fun n => [n]) :
    Accounts (postfixed l operand) [] fun n => [n] := by
  refine Accounts.bind hp fun a => Accounts.loop (fun n => [n]) (fun a => ?_) a
  refine .after (operator?_aside l false) fun found => ?_
  split
  · exact Accounts.pure rfl
  · rename_i o position
    exact again_accounts (operatorCall_accounts o [a] position)

theorem exhausted_accounts :
    Accounts (exhaust >>= fun _ => pure Node.errorValue) [] fun n => [n] :=
  .after exhaust_aside fun _ =>
    Accounts.regroup (fun _ => List.forall_mem_singleton.mpr trivial) rfl

theorem rightAssociative_accounts (l : Level) (hp : Accounts operand [] fun n => [n]) (n : Nat) :
    Accounts (rightAssociative l operand n) [] fun n => [n] := by
  induction n with
  | zero => exact exhausted_accounts
  | succ n ih =>
    refine Accounts.bind hp fun a => .after (operator?_aside l false) fun found => ?_
    split
    · exact Accounts.pure rfl
    · rename_i o position
      exact Accounts.bind (ih.behind [a]) fun b => operatorCall_accounts o [a, b] position

theorem prefixed_accounts (l : Level) (hp : Accounts operand [] fun n => [n]) (n : Nat) :
    Accounts (prefixed l operand n) [] fun n => [n] := by
  induction n with
  | zero => exact exhausted_accounts
  | succ n ih =>
    refine .after (operator?_aside l true) fun found => ?_
    split
    · exact hp
    · rename_i o position
      exact Accounts.bind ih fun a => operatorCall_accounts o [a] position

theorem bound_aside : Moves Aside bound := Moves.get_bind fun _ => Moves.pure _

theorem expression_accounts {term : Parser Node} (ht : Accounts term [] fun n => [n])
    (ls : List Level) : Accounts (expression term ls) [] fun n => [n] := by
  induction ls with
  | nil => exact ht
  | cons l ls ih =>
    unfold expression
    split
    · refine .ite (fun _ => .after bound_aside fun _ => ?_) fun _ => leftAssociative_accounts l ih
      exact rightAssociative_accounts l ih _
    · exact postfixed_accounts l ih
    · exact .after bound_aside fun _ => prefixed_accounts l ih _

theorem operationSeparator_accounts (items : List Node) :
    Accounts (operationSeparator items) items Turn.value := by
  refine .after discard_aside fun _ => .after (next_aside _ _) fun token => ?_
  split
  · exact passComma_accounts .operation (fun _ => false) items id
  · exact Accounts.pure rfl
  · exact error_turn_accounts _ (.done items) id
  · exact Accounts.pure rfl
  · exact .after (error_aside _) fun _ => .after (rewind_aside _) fun _ => Accounts.pure rfl

theorem operationEntry_accounts (hp : Accounts operand [] fun n => [n]) (items : List Node) :
    Accounts (operationEntry operand items) items Turn.value := by
  refine .after discard_aside fun _ => .after (next_aside _ _) fun token => ?_
  split
  · exact error_turn_accounts _ (.done items) id
  · exact Accounts.pure rfl
  · exact error_turn_accounts _ (.again items) id
  · exact .after (rewind_aside _) fun _ =>
      Accounts.bind (hp.behind items) fun a => operationSeparator_accounts _

theorem operationItems_accounts (hi : Accounts inner [] Option.toList)
    (ho : Accounts operationInner [] Option.toList) :
    Accounts (operationItems inner operationInner) [] id :=
  fun s => Yields.get_bind (Accounts.loop id
    (operationEntry_accounts (expression_accounts (term_accounts hi ho) _)) [] s)

theorem operation_accounts (hi : Accounts inner [] Option.toList)
    (ho : Accounts operationInner [] Option.toList) (name : String) (start : Nat) :
    Accounts (operation inner operationInner name start) [] fun n => [n] :=
  Accounts.bind (operationItems_accounts hi ho) fun items => listed_accounts name true items start

theorem ungroup_keyed {n : Node} (h : n.Keyed) : (ungroup n).Keyed := by
  unfold ungroup
  split
  · exact h.1
  · exact h

theorem ungroup_marked {n : Node} (h : n.mark = none) : (ungroup n).marked = n.marked := by
  unfold ungroup
  split
  · rename_i n i
    rw [Node.marked_list_of_unmarked (i := i) h, List.flatMap_singleton]
  · rfl

/-! ## Collections -/

theorem collection_accounts (depth : Nat) (inOperation : Bool) :
    Accounts (collection depth inOperation) [] Option.toList := by
  induction depth generalizing inOperation with
  | zero => exact .after exhaust_aside fun _ => Accounts.pure rfl
  | succ depth ih =>
    have hobject := object_accounts (ih false)
    have hlist := list_accounts (ih false)
    have hoperation := operation_accounts (ih false) (ih true)
    refine .after discard_aside fun _ => .after (next_aside _ _) fun token => ?_
    split
    · exact Accounts.bind (hobject _ _) fun _ => Accounts.pure rfl
    · exact Accounts.bind (hlist _ _) fun _ => Accounts.pure rfl
    · refine Accounts.bind_of (Q := fun n => n.mark = none) (hoperation _ _) (fun _ => rfl)
        fun n hn => Accounts.regroup (fun h => ?_) ?_
      · exact List.forall_mem_singleton.mpr (ungroup_keyed (h n List.mem_cons_self))
      · rw [Option.toList_some, markedIn_singleton, markedIn_singleton, ungroup_marked hn]
    · refine .ite (fun _ => .after (next_aside _ _) fun after => ?_) fun _ => ?_
      · split
        · exact Accounts.bind_of (Q := fun n => n.mark = none) (hobject _ _) (fun _ => rfl)
            fun n hn => namedValue_accounts hn token rfl
        · exact Accounts.bind_of (Q := fun n => n.mark = none) (hlist _ _) (fun _ => rfl)
            fun n hn => namedValue_accounts hn token rfl
        · exact Accounts.bind_of (Q := fun n => n.mark = none) (hoperation _ _) (fun _ => rfl)
            fun n hn => namedValue_accounts hn token rfl
        · exact .after (rewind_aside _) fun _ => Accounts.pure rfl
      · exact .after (rewind_aside _) fun _ => Accounts.pure rfl

theorem topCollection_accounts : Accounts topCollection [] Option.toList :=
  .after bound_aside fun _ => collection_accounts _ _

theorem skipStatement_aside (mode : ReadMode) (stop : StopAt) :
    Moves Aside (skipStatement mode stop) :=
  Moves.bind (skipTo_aside topCollection_accounts _ _) fun _ => Moves.pure _

end ConfigScript.Parser
