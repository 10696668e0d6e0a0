import ConfigScript.Parser.Script
import ConfigScript.Proofs.Parser.Defers

/-! # Values read with calls left open

Every reader of values does with recorded calls what it does with calls made. So a value can as
well be read as the body of a constant macro, and applying that macro gives the value. -/

namespace ConfigScript.Parser

open Node (withoutInfo)

variable {inner operationInner : Parser (Option Node)}

/-! ## Values -/

theorem expr_defers (hi : Defers True DeferredOption inner inner) :
    Defers True DeferredOption (expr inner) (expr inner) := by
  refine Defers.same_bind discard_same fun _ => Defers.option_bind hi ?_ fun d m n => ?_
  · refine Defers.same_bind (rewind_same _) fun _ => ?_
    refine Defers.same_bind (next_same _ _) fun token => ?_
    refine Defers.ite ?_ ?_
    · refine (primitiveValue_defers token).bind fun d m n => Defers.pure fun h => ?_
      rw [List.append_nil]
      exact .some h.2
    · refine ((error_noisy _).bind fun _ => ?_).defers
      exact Moves.bind (rewind_extends _) fun _ => Moves.pure _
  · refine Defers.pure fun h => ?_
    rw [List.append_nil]
    exact .some h.2

theorem exprOrError_defers (hi : Defers True DeferredOption inner inner) :
    Defers True Deferred (exprOrError inner) (exprOrError inner) := by
  refine Defers.option_bind (expr_defers hi) substitute_defers fun d m n => Defers.pure fun h => ?_
  rw [List.append_nil]
  exact h.2

/-- Properties of an object being read. -/
structure PropertiesAlike (d : Calls) (ps qs : List (String × Node)) : Prop where
  nodup : (Properties.keys ps).Nodup
  deferred : DeferredProperties d ps qs

theorem PropertiesAlike.put {d e : Calls} {ps qs : List (String × Node)} {key : String}
    {m n : Node} (h : PropertiesAlike d ps qs) (hk : key ∉ Properties.keys ps)
    (hm : Deferred e m n) :
    PropertiesAlike (d ++ e) (Properties.put key m ps) (Properties.put key n qs) := by
  rw [Properties.put_append hk, Properties.put_append (h.deferred.keys_eq ▸ hk)]
  refine ⟨?_, h.deferred.concat key hm⟩
  rw [Properties.keys, List.map_append, List.map_singleton]
  refine List.nodup_append.mpr ⟨h.nodup, by simp, fun a ha b hb hab => hk ?_⟩
  rw [hab, List.mem_singleton.mp hb] at ha
  exact ha

theorem passComma_defers {α : Type} {R : Calls → α → α → Prop} (mode : ReadMode)
    (again : Token → Bool) (d : Calls) (b a : α) :
    Defers (R d b a) (fun e => TurnsAlike (R (d ++ e)))
      (discard >>= fun _ => next true mode >>= fun token =>
        if token.kind != .comma then rewind (again token) >>= fun _ => pure (.again a)
        else pure (.again a))
      (discard >>= fun _ => next true mode >>= fun token =>
        if token.kind != .comma then rewind (again token) >>= fun _ => pure (.again b)
        else pure (.again b)) := by
  refine Defers.same_bind discard_same fun _ => Defers.same_bind (next_same _ _) fun token => ?_
  refine Defers.ite ?_ (Defers.again d b a)
  exact Defers.same_bind (rewind_same _) fun _ => Defers.again d b a

theorem objectSeparator_defers (hi : Moves Extends inner) (d : Calls)
    (ps qs : List (String × Node)) :
    Defers (PropertiesAlike d ps qs) (fun e => TurnsAlike (PropertiesAlike (d ++ e)))
      (objectSeparator inner qs) (objectSeparator inner ps) := by
  refine Defers.same_bind (next_same _ _) fun token => ?_
  generalize token.kind = kind
  cases kind with
  | lineBreak => exact passComma_defers .key (fun _ => false) d ps qs
  | comma => exact Defers.again d ps qs
  | endOfFile => exact ((error_noisy _).bind fun _ => Moves.pure _).defers
  | rightBrace => exact Defers.done d ps qs
  | _ => exact ((error_noisy _).bind fun _ => resume_extends hi _ _ _).defers

theorem objectProperty_defers (hi : Defers True DeferredOption inner inner) (key : Token)
    (d : Calls) (ps qs : List (String × Node)) :
    Defers (PropertiesAlike d ps qs) (fun e => TurnsAlike (PropertiesAlike (d ++ e)))
      (objectProperty inner key qs) (objectProperty inner key ps) := by
  refine Defers.intro (objectProperty_extends hi.moves key qs) fun h => ?_
  have hkeys := h.deferred.keys_eq
  have hcontains : Properties.contains key.text ps = Properties.contains key.text qs := by
    rw [Bool.eq_iff_iff, Properties.contains_iff, Properties.contains_iff, hkeys]
  refine Defers.same_bind discard_same fun _ => Defers.same_bind (next_same _ _) fun token => ?_
  refine Defers.ite ?_ ?_
  · refine ((error_noisy _).bind fun _ => Moves.bind (rewind_extends _) fun _ => ?_).defers
    exact resume_extends hi.moves _ _ _
  · simp only [hcontains]
    cases hc : Properties.contains key.text qs with
    | true =>
      refine ((reportDuplicate_noisy _ _).bind fun _ => ?_).defers
      exact Moves.bind (exprOrError_extends hi.moves) fun _ =>
        Moves.bind (noteLost_extends _) fun _ => objectSeparator_extends hi.moves _
    | false =>
      have hnot : key.text ∉ Properties.keys qs := fun hmem => by
        simp [Properties.contains_iff.mpr hmem] at hc
      rw [← hkeys] at hnot
      refine Defers.bind (exprOrError_defers hi) fun e m n => ?_
      refine Defers.same_bind noteLost_same fun _ => ?_
      refine (objectSeparator_defers hi.moves (d ++ e) _ _).mono (fun hm => ?_) fun _ f _ _ hr => ?_
      · exact h.put hnot hm.2
      · rwa [← List.append_assoc]

theorem objectEntry_defers (hi : Defers True DeferredOption inner inner) (d : Calls)
    (ps qs : List (String × Node)) :
    Defers (PropertiesAlike d ps qs) (fun e => TurnsAlike (PropertiesAlike (d ++ e)))
      (objectEntry inner qs) (objectEntry inner ps) := by
  refine Defers.same_bind (next_same _ _) fun key => ?_
  generalize key.kind = kind
  cases kind with
  | endOfFile => exact ((error_noisy _).bind fun _ => Moves.pure _).defers
  | rightBrace => exact Defers.done d ps qs
  | comma => exact ((error_noisy _).bind fun _ => Moves.pure _).defers
  | _ =>
    refine Defers.ite (objectProperty_defers hi key d ps qs) ?_
    exact ((error_noisy _).bind fun _ => resume_extends hi.moves _ _ _).defers

theorem object_defers (hi : Defers True DeferredOption inner inner) (name : String)
    (start : Nat) :
    Defers True (Callable .object) (object inner name start) (object inner name start) := by
  refine Defers.bind ((Defers.loop (objectEntry_defers hi) [] [] []).mono
    (fun _ => ⟨List.nodup_nil, .nil⟩) fun _ _ _ _ => id) fun d ps qs => Defers.pure fun h => ?_
  rw [List.append_nil]
  exact .object h.2.nodup h.2.deferred name start

theorem listSeparator_defers (hi : Moves Extends inner) (d : Calls) (xs ys : List Node) :
    Defers (DeferredItems d xs ys) (fun e => TurnsAlike (DeferredItems (d ++ e)))
      (listSeparator inner ys) (listSeparator inner xs) := by
  refine Defers.same_bind (next_same _ _) fun token => ?_
  generalize token.kind = kind
  cases kind with
  | lineBreak => exact passComma_defers .unexpected (fun token => token.kind == .unexpected) d xs ys
  | comma => exact Defers.again d xs ys
  | endOfFile => exact ((error_noisy _).bind fun _ => Moves.pure _).defers
  | rightBracket => exact Defers.done d xs ys
  | _ => exact ((error_noisy _).bind fun _ => resume_extends hi _ _ _).defers

theorem listValue_defers (hi : Defers True DeferredOption inner inner) (d : Calls)
    (xs ys : List Node) (again : Bool) :
    Defers (DeferredItems d xs ys) (fun e => TurnsAlike (DeferredItems (d ++ e)))
      (rewind again >>= fun _ => expr inner >>= fun
        | some value => listSeparator inner (ys ++ [value])
        | none => listSeparator inner ys)
      (rewind again >>= fun _ => expr inner >>= fun
        | some value => listSeparator inner (xs ++ [value])
        | none => listSeparator inner xs) := by
  refine Defers.same_bind (rewind_same _) fun _ => ?_
  refine Defers.option_bind ((expr_defers hi).mono (fun _ => trivial) fun _ _ _ _ => id)
    (listSeparator_defers hi.moves d xs ys) fun e m n => ?_
  refine (listSeparator_defers hi.moves (d ++ e) _ _).mono (fun h => h.1.concat h.2)
    fun _ f _ _ hr => ?_
  rwa [← List.append_assoc]

theorem listEntry_defers (hi : Defers True DeferredOption inner inner) (d : Calls)
    (xs ys : List Node) :
    Defers (DeferredItems d xs ys) (fun e => TurnsAlike (DeferredItems (d ++ e)))
      (listEntry inner ys) (listEntry inner xs) := by
  refine Defers.same_bind discard_same fun _ => Defers.same_bind (next_same _ _) fun token => ?_
  generalize token.kind = kind
  cases kind with
  | endOfFile => exact ((error_noisy _).bind fun _ => Moves.pure _).defers
  | rightBracket => exact Defers.done d xs ys
  | comma => exact ((error_noisy _).bind fun _ => Moves.pure _).defers
  | _ => exact listValue_defers hi d xs ys _

theorem list_defers (hi : Defers True DeferredOption inner inner) (name : String) (start : Nat) :
    Defers True (Callable .list) (list inner name start) (list inner name start) := by
  refine Defers.bind ((Defers.loop (listEntry_defers hi) [] [] []).mono (fun _ => .nil)
    fun _ _ _ _ => id) fun d xs ys => Defers.pure fun h => ?_
  rw [List.append_nil]
  exact .list rfl false h.2 name start

/-! ## Operations -/

theorem term_defers (hi : Moves Extends inner)
    (ho : Defers True DeferredOption operationInner operationInner) :
    Defers True Deferred (term inner operationInner) (term inner operationInner) := by
  refine Defers.same_bind discard_same fun _ => Defers.option_bind ho ?_ fun d m n => ?_
  · refine Defers.same_bind (rewind_same _) fun _ => ?_
    refine Defers.same_bind (next_same _ _) fun token => ?_
    refine Defers.ite (primitiveValue_defers token) ?_
    refine ((error_noisy _).bind fun _ => Moves.bind (rewind_extends _) fun _ => ?_).defers
    refine Moves.bind (skipTo_extends hi _ _) fun found => ?_
    exact Moves.ite (Moves.bind (rewind_extends _) fun _ => substitute_extends) substitute_extends
  · refine Defers.pure fun h => ?_
    rw [List.append_nil]
    exact h.2

theorem operator?_same (l : Level) (skipBreaks : Bool) : Same (operator? l skipBreaks) := by
  refine Defers.same_bind discard_same fun _ => Defers.same_bind (next_same _ _) fun token => ?_
  cases operatorOf? l token with
  | none => exact Defers.same_bind (rewind_same _) fun _ => Defers.pure fun _ => ⟨rfl, rfl⟩
  | some o => exact Defers.pure fun _ => ⟨rfl, rfl⟩

variable {operand : Parser Node}

theorem leftAssociative_defers (l : Level) (hp : Defers True Deferred operand operand) :
    Defers True Deferred (leftAssociative l operand) (leftAssociative l operand) := by
  refine hp.bind fun d m n => (Defers.loop (fun d x a => ?_) d m n).mono And.right
    fun _ _ _ _ => id
  refine Defers.same_bind (operator?_same l false) fun found => ?_
  cases found with
  | none => exact Defers.done d x a
  | some o =>
    refine Defers.bind (hp.mono (fun _ => trivial) fun _ _ _ _ => id) fun e y b => ?_
    refine Defers.ite ?_ ?_
    · refine Defers.bind (accessorCall_defers o.1 o.2 d e x y a b) fun f m n => ?_
      refine Defers.pure fun h => ?_
      rw [List.append_nil, ← List.append_assoc]
      exact h.2
    · refine Defers.bind ((operatorCall_defers o.1 o.2 (d ++ e) [x, y] [a, b]).mono
        (fun h => .cons h.1 (.singleton h.2)) fun _ _ _ _ => id) fun f m n => ?_
      refine Defers.pure fun h => ?_
      rw [List.append_nil, ← List.append_assoc]
      exact h.2

theorem postfixed_defers (l : Level) (hp : Defers True Deferred operand operand) :
    Defers True Deferred (postfixed l operand) (postfixed l operand) := by
  refine hp.bind fun d m n => (Defers.loop (fun d x a => ?_) d m n).mono And.right
    fun _ _ _ _ => id
  refine Defers.same_bind (operator?_same l false) fun found => ?_
  cases found with
  | none => exact Defers.done d x a
  | some o =>
    refine Defers.bind ((operatorCall_defers o.1 o.2 d [x] [a]).mono (fun h => .singleton h)
      fun _ _ _ _ => id) fun f m n => Defers.pure fun h => ?_
    rw [List.append_nil]
    exact h.2

theorem rightAssociative_defers (l : Level) (hp : Defers True Deferred operand operand)
    (n : Nat) :
    Defers True Deferred (rightAssociative l operand n) (rightAssociative l operand n) := by
  induction n with
  | zero =>
    exact Defers.same_bind exhaust_same fun _ => Defers.pure fun _ => .primitive ⟨rfl, rfl⟩
  | succ n ih =>
    refine hp.bind fun d x a => Defers.same_bind (operator?_same l false) fun found => ?_
    cases found with
    | none =>
      refine Defers.pure fun h => ?_
      rw [List.append_nil]
      exact h.2
    | some o =>
      refine Defers.bind (ih.mono (fun _ => trivial) fun _ _ _ _ => id) fun e y b => ?_
      refine (operatorCall_defers o.1 o.2 (d ++ e) [x, y] [a, b]).mono
        (fun h => .cons h.1.2 (.singleton h.2)) fun _ f _ _ hr => ?_
      rwa [← List.append_assoc]

theorem prefixed_defers (l : Level) (hp : Defers True Deferred operand operand) (n : Nat) :
    Defers True Deferred (prefixed l operand n) (prefixed l operand n) := by
  induction n with
  | zero =>
    exact Defers.same_bind exhaust_same fun _ => Defers.pure fun _ => .primitive ⟨rfl, rfl⟩
  | succ n ih =>
    refine Defers.same_bind (operator?_same l true) fun found => ?_
    cases found with
    | none => exact hp
    | some o =>
      refine ih.bind fun d x a => (operatorCall_defers o.1 o.2 d [x] [a]).mono
        (fun h => .singleton h.2) fun _ _ _ _ => id

theorem expression_defers {term : Parser Node} (ht : Defers True Deferred term term)
    (ls : List Level) : Defers True Deferred (expression term ls) (expression term ls) := by
  induction ls with
  | nil => exact ht
  | cons l ls ih =>
    unfold expression
    cases l.fixity with
    | binary =>
      refine Defers.ite ?_ (leftAssociative_defers l ih)
      exact Defers.same_bind bound_same fun n => rightAssociative_defers l ih n
    | postfixed => exact postfixed_defers l ih
    | prefixed => exact Defers.same_bind bound_same fun n => prefixed_defers l ih n

theorem operationSeparator_defers (d : Calls) (xs ys : List Node) :
    Defers (DeferredItems d xs ys) (fun e => TurnsAlike (DeferredItems (d ++ e)))
      (operationSeparator ys) (operationSeparator xs) := by
  refine Defers.same_bind discard_same fun _ => Defers.same_bind (next_same _ _) fun token => ?_
  generalize token.kind = kind
  cases kind with
  | lineBreak => exact passComma_defers .operation (fun _ => false) d xs ys
  | comma => exact Defers.again d xs ys
  | endOfFile => exact ((error_noisy _).bind fun _ => Moves.pure _).defers
  | rightParen => exact Defers.done d xs ys
  | _ =>
    refine ((error_noisy _).bind fun _ => ?_).defers
    exact Moves.bind (rewind_extends _) fun _ => Moves.pure _

theorem operationEntry_defers (hp : Defers True Deferred operand operand) (d : Calls)
    (xs ys : List Node) :
    Defers (DeferredItems d xs ys) (fun e => TurnsAlike (DeferredItems (d ++ e)))
      (operationEntry operand ys) (operationEntry operand xs) := by
  refine Defers.same_bind discard_same fun _ => Defers.same_bind (next_same _ _) fun token => ?_
  generalize token.kind = kind
  cases kind with
  | endOfFile => exact ((error_noisy _).bind fun _ => Moves.pure _).defers
  | rightParen => exact Defers.done d xs ys
  | comma => exact ((error_noisy _).bind fun _ => Moves.pure _).defers
  | _ =>
    refine Defers.same_bind (rewind_same _) fun _ => ?_
    refine Defers.bind (hp.mono (fun _ => trivial) fun _ _ _ _ => id) fun e x y => ?_
    refine (operationSeparator_defers (d ++ e) _ _).mono (fun h => h.1.concat h.2)
      fun _ f _ _ hr => ?_
    rwa [← List.append_assoc]

theorem ungroup_deferred {d : Calls} {xs ys : List Node} (h : DeferredItems d xs ys) (start : Nat) :
    Deferred d (ungroup ((Node.list "" true xs {}).placedAt start))
      (ungroup ((Node.list "" true ys {}).placedAt start)) := by
  have hlist : Deferred d ((Node.list "" true xs {}).placedAt start)
      ((Node.list "" true ys {}).placedAt start) := .list ⟨rfl, rfl⟩ h
  cases h with
  | nil => exact hlist
  | cons h hs =>
    cases hs with
    | nil =>
      rw [List.append_nil]
      exact h
    | cons h' hs => exact hlist

theorem operationItems_defers (hi : Moves Extends inner)
    (ho : Defers True DeferredOption operationInner operationInner) :
    Defers True DeferredItems (operationItems inner operationInner)
      (operationItems inner operationInner) := by
  refine Defers.get_bind fun s _ _ _ => ?_
  exact (Defers.loop (operationEntry_defers (expression_defers (term_defers hi ho) _))
    [] [] []).mono (fun _ => .nil) fun _ _ _ _ => id

theorem operation_bind (hi : Moves Extends inner)
    (ho : Defers True DeferredOption operationInner operationInner) (name : String) (start : Nat)
    {f : Node → Parser (Option Node)}
    (hf : ∀ d xs ys, Defers (DeferredItems d xs ys) (fun e => DeferredOption (d ++ e))
      (f ((Node.list name true ys {}).placedAt start))
      (f ((Node.list name true xs {}).placedAt start))) :
    Defers True DeferredOption (operation inner operationInner name start >>= f)
      (operation inner operationInner name start >>= f) := by
  show Defers True DeferredOption
    (operationItems inner operationInner >>= fun ys =>
      f ((Node.list name true ys {}).placedAt start))
    (operationItems inner operationInner >>= fun xs =>
      f ((Node.list name true xs {}).placedAt start))
  exact Defers.bind (operationItems_defers hi ho) fun d xs ys =>
    (hf d xs ys).mono And.right fun _ _ _ _ => id

/-! ## Collections -/

theorem collection_defers (depth : Nat) (inOperation : Bool) :
    Defers True DeferredOption (collection depth inOperation) (collection depth inOperation) := by
  induction depth generalizing inOperation with
  | zero => exact Defers.same_bind exhaust_same fun _ => Defers.pure fun _ => .none
  | succ depth ih =>
    have hi := ih false
    have hnamed (token : Token) (kind : MacroKind) (d : Calls) (m n : Node) :
        Defers (True ∧ Callable kind d m n) (fun e => DeferredOption (d ++ e))
          (namedValue token kind n) (namedValue token kind m) :=
      Defers.intro (namedValue_extends _ _ _) fun h => namedValue_defers token h.2
    refine Defers.same_bind discard_same fun _ => Defers.same_bind (next_same _ _) fun token => ?_
    split
    · refine Defers.bind (object_defers hi "" _) fun d m n => Defers.pure fun h => ?_
      rw [List.append_nil]
      exact .some h.2.deferred
    · refine Defers.bind (list_defers hi "" _) fun d m n => Defers.pure fun h => ?_
      rw [List.append_nil]
      exact .some h.2.deferred
    · refine operation_bind hi.moves (ih true) "" _ fun d xs ys => Defers.pure fun h => ?_
      rw [List.append_nil]
      exact .some (ungroup_deferred h _)
    · refine Defers.ite (Defers.same_bind (next_same _ _) fun after => ?_) ?_
      · split
        · exact Defers.bind (object_defers hi _ _) fun d m n => hnamed token .object d m n
        · exact Defers.bind (list_defers hi _ _) fun d m n => hnamed token .list d m n
        · refine operation_bind hi.moves (ih true) _ _ fun d xs ys => ?_
          refine Defers.intro (namedValue_extends _ _ _) fun h => ?_
          exact namedValue_defers token (.list rfl true h _ _)
        · exact Defers.same_bind (rewind_same _) fun _ => Defers.pure fun _ => .none
      · exact Defers.same_bind (rewind_same _) fun _ => Defers.pure fun _ => .none

theorem topCollection_defers : Defers True DeferredOption topCollection topCollection :=
  Defers.same_bind bound_same fun n => collection_defers n false

/-! ## Bodies -/

/-- A value that is read in silence from a state in which calls are made at once can as well be
read as the body of a constant macro: the tokens are the same, nothing is reported, the macro is
complete, and applying it gives the value. -/
theorem body_agrees {s : ParserState} (hr : s.recovering = false) (ht : s.visible.macros.Trusted)
    (hs : s.visible.macros.Steady) {v : Node} {u : ParserState}
    (hv : (expr topCollection).run { s with template := none, accessedMade := false } = (some v, u))
    (hreports : u.reports = s.reports) (hmade : u.accessedMade = false) (start : Nat)
    (name : String) :
    ∃ b t m,
      (expr topCollection).run
        { s with template := some (Template.begin start name .constant), accessedMade := false }
        = (some b, { u with template := some t })
      ∧ t.finish b = (some m, [])
      ∧ ∀ arg copy, ∃ w, m.apply arg copy = Expansion.produced w
        ∧ w.withoutInfo = v.withoutInfo := by
  have himm : Immediate { s with template := none, accessedMade := false } := ⟨rfl, hr, ht, hs⟩
  have hfollow := (expr_defers topCollection_defers).follows trivial _ himm
  rw [Yields, hv] at hfollow
  obtain ⟨calls, hcalls, hstate, hvalue⟩ := hfollow ⟨hreports, hmade⟩ start name [] rfl
  rw [List.nil_append] at hcalls hstate
  generalize hrun : (expr topCollection).run
    (inBody start name [] { s with template := none, accessedMade := false }) = found
    at hstate hvalue
  obtain ⟨found, w⟩ := found
  subst hstate
  cases hvalue with
  | @some _ b _ h =>
    obtain ⟨m, hm, happly⟩ := h.finishes (hcalls ▸ List.nodup_range) start name
    exact ⟨b, .recording start name calls, m, hrun, hm, happly⟩

/-- A call around a call: made from the inside to the outside, or recorded and made later. -/
theorem body_agrees_nested :
    let one : Macro := .template ⟨⟨"one", .constant⟩, [], none⟩ (.value "1") []
    let pair : Macro := .native ⟨⟨"pair", .list⟩, [⟨"a", none⟩, ⟨"b", none⟩], none⟩
      fun args _ => Expansion.produced (.list "both" false args {})
    let s := start {} { macros := ⟨[one, pair]⟩ } (Source.ofText "pair[one, [one]]")
    let u := ((expr topCollection).run { s with template := none, accessedMade := false }).2
    ∃ v b t m,
      v.same (.list "both" false [.value "1", .list "" false [.value "1"] {}] {}) = true
      ∧ (expr topCollection).run { s with template := none, accessedMade := false } = (some v, u)
      ∧ (expr topCollection).run
        { s with template := some (Template.begin 0 "m" .constant), accessedMade := false }
        = (some b, { u with template := some t })
      ∧ t.finish b = (some m, [])
      ∧ ∀ arg copy, ∃ w, m.apply arg copy = Expansion.produced w
        ∧ w.withoutInfo = v.withoutInfo := by
  intro one pair s u
  have ht : s.visible.macros.Trusted := by
    intro m hm
    rcases List.mem_cons.mp hm with rfl | hm
    · exact .template rfl fun _ _ h => absurd h List.not_mem_nil
    · rw [List.mem_singleton.mp hm]
      exact .native rfl fun _ _ => Expansion.produced_speaks _
  have hs : s.visible.macros.Steady := by
    intro m hm
    rcases List.mem_cons.mp hm with rfl | hm
    · exact .template fun _ _ h => absurd h List.not_mem_nil
    · rw [List.mem_singleton.mp hm]
      refine .native fun xs ys _ _ hxy => Expansion.Leads.produced ?_
      rw [withoutInfo, withoutInfo, Node.withoutInfoItems_eq, Node.withoutInfoItems_eq, hxy]
  have hread : (((expr topCollection).run
      { s with template := none, accessedMade := false }).1.any fun v =>
        v.same (.list "both" false [.value "1", .list "" false [.value "1"] {}] {})) = true := by
    decide +kernel
  have hreports : u.reports.isEmpty = true := by decide +kernel
  obtain ⟨v, hv, hsame⟩ := (Option.any_eq_true _ _).mp hread
  obtain ⟨b, t, m, hb, hm, happly⟩ := body_agrees rfl ht hs (Prod.ext hv rfl)
    (List.isEmpty_iff.mp hreports) (by decide +kernel) 0 "m"
  exact ⟨v, b, t, m, hsame, Prod.ext hv rfl, hb, hm, happly⟩

end ConfigScript.Parser
