import ConfigScript.Parser.Statement
import ConfigScript.Proofs.Operator.Valid
import ConfigScript.Proofs.Parser.Rules

/-! # Rules for statements

Reading a statement reads values, and then takes a few steps that change what the script has come
to and what is known to it. Two judgements take part: one of the readers, and a weaker one of whole
statements, which has to allow those steps as well. What an import brings is not looked at here. -/

namespace ConfigScript.Parser

/-- The value of a statement that imports knows where the statement starts. -/
def Statement.Placed (A : Nat → Prop) : Statement → Prop
  | .importing _ start _ => A start
  | _ => True

/-- The judgement `J` of statements takes over what the judgement `K` of readers allows, and allows
the steps of statements too. -/
structure StatementRules (A : Nat → Prop) (N : NativeBody → Prop)
    (K J : ∀ α : Type, Parser α → (α → Prop) → Prop) : Prop where
  readers : Rules A K
  lift {α : Type} {p : Parser α} {Q : α → Prop} : K α p Q → J α p Q
  bind {α β : Type} {p : Parser α} {f : α → Parser β} {P : α → Prop} {Q : β → Prop} :
    J α p P → (∀ a, P a → J β (f a) Q) → J β (p >>= f) Q
  push {n : Node} : n.Placed A →
    J _ (modify fun s => { s with root := s.root ++ [n] }) fun _ => True
  /-- A body is read with a template under construction, and none is left after it. What follows
  looks at nothing else of the state that the body leaves. -/
  body {α : Type} {t : Template} {p : Parser Node} {f : Node → ParserState → Parser α}
    {Q : α → Prop} : t.Placed A N → K _ p (fun n => n.Placed A) →
    (∀ n s s', s.template = s'.template → f n s = f n s') →
    (∀ n s, n.Placed A → (∀ t ∈ s.template, t.Placed A N) → J α (f n s) Q) →
    J α (do
      modify fun s => { s with template := some t }
      let n ← p
      let s ← get
      modify fun s => { s with template := none }
      f n s) Q
  registerMacro {m : Macro} {start : Nat} : Macro.checkHead m.head = .ok () → m.Placed A N →
    A start → J _ (registerMacro start m) fun _ => True
  registerOperator {o : Operator} {start : Nat} : o.Valid → A start →
    J _ (registerOperator start o) fun _ => True
  forgetMacro (s : Signature) : J _ (forgetMacro s) fun _ => True
  forgetOperator (name : String) (keyword : Bool) :
    J _ (forgetOperator name keyword) fun _ => True

namespace Rules

variable {A : Nat → Prop} {N : NativeBody → Prop}
  {K : ∀ α : Type, Parser α → (α → Prop) → Prop} (hK : Rules A K)
include hK

/-! ## The ends of statements -/

theorem error_skip (message : String) (mode : ReadMode) (stop : StopAt) :
    K _ (Parser.error message >>= fun _ => Parser.skipStatement mode stop) fun _ => True :=
  hK.bind (hK.error _) fun _ _ => hK.skipStatement _ _

theorem endStatement : K _ endStatement fun _ => True := by
  refine hK.bind hK.discard fun _ _ => hK.bind (hK.next _ _) fun token _ => ?_
  split
  · exact hK.passComma .unexpected (fun token => token.kind == .unexpected) trivial
  · exact hK.pure trivial
  · exact hK.pure trivial
  · exact hK.bind (hK.rewind _) fun _ _ => hK.pure trivial

theorem expectEnd (message : String) : K _ (expectEnd message) fun _ => True :=
  hK.bind hK.endStatement fun _ _ =>
    of_ite (fun _ => hK.error_skip _ _ _) fun _ => hK.pure trivial

theorem definitionName (mode : ReadMode) : K _ (definitionName mode) fun _ => True := by
  refine hK.bind hK.discard fun _ _ => hK.bind (hK.next _ _) fun token _ => ?_
  refine of_ite (fun _ => ?_) fun _ => hK.pure trivial
  refine hK.bind (hK.error _) fun _ _ => hK.bind (hK.rewind _) fun _ _ => ?_
  exact hK.bind (hK.skipStatement _ _) fun _ _ => hK.pure trivial

theorem skipLine : K _ skipLine fun _ => True := by
  refine hK.loop (I := fun _ => True) (fun _ _ => ?_) trivial
  exact hK.bind (hK.next _ _) fun _ _ =>
    of_ite (fun _ => hK.pure trivial) fun _ => hK.pure trivial

/-! ## Parameters -/

theorem defaultValue : K _ defaultValue fun r => ∀ d ∈ r.1, d.Placed A := by
  refine hK.bind (hK.next _ _) fun token _ => of_ite (fun _ => ?_) fun _ => hK.pure (by simp)
  refine hK.bind (hK.outside (hK.exprOrError hK.topCollection)) fun value hv => ?_
  exact hK.bind (hK.next _ _) fun _ _ => hK.pure (by simpa using hv)

theorem paramTurn (closer : TokenKind) {t : Template} (ht : t.Placed A N) :
    K _ (paramTurn closer t) fun r => r.Meets (fun t => t.Placed A N) fun t => t.Placed A N := by
  unfold Parser.paramTurn
  have hresume (message : String) {t : Template} (ht : t.Placed A N) :
      K _ (Parser.error message >>= fun _ => resumeParams closer t)
        fun r => r.Meets (fun t => t.Placed A N) fun t => t.Placed A N :=
    hK.bind (hK.error _) fun _ _ => hK.resume hK.topCollection _ _ ht.invalidate
  refine hK.bind (hK.next _ _) fun token hstart => of_ite (fun _ => hK.pure ht) fun _ => ?_
  refine of_ite (fun _ => hresume _ ht) fun _ => hK.bind hK.defaultValue fun r hd => ?_
  have hadd := ht.addParam token.text hd hstart
  refine hK.bind (hK.reports hadd.2) fun _ _ => of_ite (fun _ => hK.pure hadd.1) fun _ => ?_
  exact of_ite (fun _ => hK.pure hadd.1) fun _ => hresume _ hadd.1

theorem params {t : Template} (ht : t.Placed A N) :
    K _ (params t) fun found => ∀ t ∈ found, t.Placed A N := by
  unfold Parser.params
  split
  · exact hK.pure (by simpa using ht)
  · refine hK.bind (hK.loop (fun t ht => hK.paramTurn _ ht) ht) fun t ht => ?_
    refine hK.bind hK.discard fun _ _ => hK.bind (hK.next _ _) fun token _ => ?_
    refine of_ite (fun _ => hK.pure (by simpa using ht)) fun _ => ?_
    refine hK.bind (hK.error _) fun _ _ => hK.bind (hK.rewind _) fun _ _ => ?_
    exact hK.bind (hK.skipStatement _ _) fun _ _ => hK.pure (by simp)

/-! ## Clauses of operators -/

theorem expect (kind : TokenKind) : K _ (expect kind) fun _ => True :=
  hK.bind (hK.next _ _) fun _ _ => of_ite (fun _ => hK.error_skip _ _ _) fun _ => hK.pure trivial

theorem priority (c : ClauseWords) : K _ (priority c) fun _ => True := by
  refine hK.bind hK.discard fun _ _ => hK.bind (hK.next _ _) fun token _ => ?_
  split
  · exact hK.bind (hK.expect _) fun _ _ => hK.pure trivial
  · refine hK.bind (hK.error _) fun _ _ => hK.bind (hK.rewind _) fun _ _ => ?_
    exact hK.bind (hK.skipStatement _ _) fun _ _ => hK.pure trivial

theorem endOfClause (c : ClauseWords) (kind : TokenKind) :
    K _ (endOfClause c kind) fun _ => True := by
  unfold Parser.endOfClause
  split
  · exact hK.priority c
  · exact hK.bind (hK.rewind _) fun _ _ => hK.pure trivial
  · exact hK.bind (hK.rewind _) fun _ _ => hK.pure trivial
  · exact hK.bind (hK.rewind _) fun _ _ => hK.pure trivial
  · exact hK.pure trivial
  · exact hK.bind (hK.error _) fun _ _ => hK.bind (hK.skipStatement _ _) fun _ _ =>
      hK.pure trivial

theorem addFixity (c : ClauseWords) (f : Fixity) : K _ (addFixity c f) fun _ => True := by
  unfold Parser.addFixity
  split
  · exact hK.pure trivial
  · exact hK.bind (hK.error _) fun _ _ => hK.pure trivial

theorem addProperty (c : ClauseWords) (word : String) : K _ (addProperty c word) fun _ => True :=
  of_ite (fun _ => hK.bind (hK.error _) fun _ _ => hK.pure trivial) fun _ => hK.pure trivial

theorem clauseWord (c : ClauseWords) :
    K _ (clauseWord c) fun r => r.Meets (fun _ => True) fun _ => True := by
  refine hK.bind hK.discard fun _ _ => hK.bind (hK.next _ _) fun token _ => ?_
  extract_lets word
  split
  · exact hK.bind (hK.addFixity _ _) fun _ _ => hK.pure trivial
  · refine of_ite (fun _ => hK.bind (hK.addProperty _ _) fun _ _ => hK.pure trivial) fun _ => ?_
    refine of_ite (fun _ => hK.bind (hK.rewind _) fun _ _ => hK.pure trivial) fun _ => ?_
    refine of_ite (fun _ => hK.bind (hK.endOfClause _ _) fun _ _ => hK.pure trivial) fun _ => ?_
    exact hK.bind (hK.error _) fun _ _ => hK.pure trivial

theorem clause : K _ clause fun _ => True := by
  refine hK.bind (hK.loop (fun c _ => hK.clauseWord c) trivial) fun c _ =>
    of_ite (fun _ => hK.pure trivial) fun _ => ?_
  split
  · exact hK.bind (hK.error _) fun _ _ => hK.pure trivial
  · split
    · exact hK.bind (hK.error _) fun _ _ => hK.pure trivial
    · exact hK.pure trivial

theorem clauseTurn (c : Clauses) :
    K _ (clauseTurn c) fun r => r.Meets (fun _ => True) fun _ => True := by
  refine hK.bind hK.clause fun found _ => hK.bind hK.discard fun _ _ => ?_
  exact hK.bind (hK.next _ _) fun token _ =>
    of_ite (fun _ => hK.pure trivial) fun _ => hK.pure trivial

theorem readAlias (after : Token) : K _ (readAlias after) fun _ => True := by
  refine of_ite (fun _ => hK.bind (hK.next _ _) fun token _ =>
    of_ite (fun _ => hK.pure trivial) fun _ => ?_) fun _ => ?_
  · exact hK.bind (hK.error _) fun _ _ => hK.bind (hK.skipStatement _ _) fun _ _ =>
      hK.pure trivial
  · exact hK.bind (hK.rewind _) fun _ _ => hK.pure trivial

/-! ## Withdrawals and imports -/

theorem forgottenKind? : K _ forgottenKind? fun _ => True := by
  refine hK.bind hK.discard fun _ _ => hK.bind (hK.next _ _) fun token _ => ?_
  split
  · exact hK.bind (hK.rewind _) fun _ _ => hK.pure trivial
  · exact hK.bind (hK.rewind _) fun _ _ => hK.pure trivial
  · exact hK.bind (hK.rewind _) fun _ _ => hK.pure trivial
  · exact hK.bind (hK.expect _) fun _ _ => hK.pure trivial
  · exact hK.bind (hK.expect _) fun _ _ => hK.pure trivial
  · exact hK.bind (hK.expect _) fun _ _ => hK.pure trivial
  · exact hK.bind (hK.error _) fun _ _ => hK.bind hK.skipLine fun _ _ => hK.pure trivial

theorem useStatement {start : Nat} (hs : A start) :
    K _ (useStatement start) (Statement.Placed A) := by
  refine hK.bind hK.discard fun _ _ => hK.bind (hK.next _ _) fun token _ => ?_
  extract_lets isPublic path
  have hpath (u : Unit) : K _ (path u) (Statement.Placed A) := by
    refine hK.bind (hK.next _ _) fun token _ => of_ite (fun _ => hK.pure hs) fun _ => ?_
    exact hK.bind (hK.error _) fun _ _ => hK.bind hK.skipLine fun _ _ => hK.pure trivial
  exact of_ite (fun _ => hK.bind (hK.rewind _) fun u _ => hpath u) fun _ => hpath ()

end Rules

namespace StatementRules

variable {A : Nat → Prop} {N : NativeBody → Prop}
  {K J : ∀ α : Type, Parser α → (α → Prop) → Prop} (hJ : StatementRules A N K J)
include hJ

theorem pure {α : Type} {a : α} {Q : α → Prop} (h : Q a) : J α (Pure.pure a) Q :=
  hJ.lift (hJ.readers.pure h)

/-! ## Values -/

theorem pushValue {n : Node} (hn : n.Placed A) : J _ (pushValue n) fun _ => True :=
  hJ.bind (hJ.push hn) fun _ _ => hJ.bind (hJ.lift hJ.readers.endStatement) fun _ _ =>
    hJ.pure trivial

theorem valueStatement (first : Token) : J _ (valueStatement first) fun _ => True := by
  refine hJ.bind (hJ.lift (hJ.readers.rewind _)) fun _ _ => ?_
  refine hJ.bind (hJ.lift hJ.readers.topCollection) fun found hf => ?_
  split
  · exact hJ.pushValue (hf _ rfl)
  · refine hJ.bind (hJ.lift (hJ.readers.next _ _)) fun token ht =>
      Rules.of_ite (fun _ => ?_) fun _ => ?_
    · exact hJ.pushValue ((Node.placed_value _).placedAt ht)
    · exact Rules.of_ite (fun _ => hJ.lift (hJ.readers.error _)) fun _ =>
        hJ.lift (hJ.readers.error_skip _ _ _)

/-! ## Macros -/

theorem macroBody {t : Template} (ht : t.Placed A N) : J _ (macroBody t) fun _ => True := by
  refine hJ.body ht (hJ.readers.exprOrError hJ.readers.topCollection)
    (fun n s s' h => by simp only [h]) fun n s hn hs => ?_
  refine hJ.bind (hJ.lift hJ.readers.discard) fun _ _ => ?_
  refine hJ.bind (hJ.lift (hJ.readers.expectEnd _)) fun _ _ => ?_
  generalize s.template = found at hs
  cases found with
  | none => exact hJ.pure trivial
  | some t =>
    have hfinish := (hs t rfl).finish hn
    refine hJ.bind (hJ.lift (hJ.readers.reports hfinish.2)) fun _ _ => ?_
    split
    · rename_i m hm
      obtain ⟨head, edits, rfl, hc, -⟩ := Template.finish_spec (Prod.ext hm rfl)
      exact hJ.registerMacro hc (hfinish.1 _ hm) (hs t rfl).start
    · exact hJ.pure trivial

theorem macroStatement (isFunction : Bool) {start : Nat} (hs : A start) :
    J _ (macroStatement isFunction start) fun _ => True := by
  refine hJ.bind (hJ.lift (hJ.readers.definitionName _)) fun name _ => ?_
  split
  · exact hJ.pure trivial
  · refine hJ.bind (hJ.lift hJ.readers.discard) fun _ _ => ?_
    refine hJ.bind (hJ.lift (hJ.readers.next _ _)) fun token _ => ?_
    split
    · refine hJ.bind (hJ.lift (hJ.readers.error _)) fun _ _ => ?_
      exact hJ.bind (hJ.lift (hJ.readers.rewind _)) fun _ _ =>
        hJ.lift (hJ.readers.skipStatement _ _)
    · have hbegin := Template.begin_placed (N := N) hs
      refine hJ.bind (hJ.lift (hJ.readers.params (hbegin _ _))) fun found hf => ?_
      split
      · exact hJ.macroBody (hf _ rfl)
      · exact hJ.pure trivial

/-! ## Operators -/

theorem registerClauses (name : String) (keyword : Bool) (produced : Option String) {start : Nat}
    (hs : A start) (cs : List OperatorClause) :
    J _ (registerClauses name keyword produced start cs) fun _ => True := by
  induction cs with
  | nil => exact hJ.pure trivial
  | cons c cs ih =>
    unfold Parser.registerClauses
    split
    · rename_i o ho
      exact hJ.bind (hJ.registerOperator (Operator.create_valid ho) hs) fun _ _ => ih
    · refine hJ.bind (hJ.lift (hJ.readers.reports (reportsPlaced_singleton ?_))) fun _ _ => ih
      exact fun p hp => Option.some.inj hp ▸ hs

theorem operatorStatement (keyword : Bool) {start : Nat} (hs : A start) :
    J _ (operatorStatement keyword start) fun _ => True := by
  have hend : J _ (expectEnd "Expected ',' or newline after operator statement") fun _ => True :=
    hJ.lift (hJ.readers.expectEnd _)
  refine hJ.bind (hJ.lift (hJ.readers.definitionName _)) fun name _ => ?_
  split
  · exact hJ.pure trivial
  · refine hJ.bind (hJ.lift (hJ.readers.next _ _)) fun token _ =>
      Rules.of_ite (fun _ => hJ.lift (hJ.readers.error_skip _ _ _)) fun _ => ?_
    refine hJ.bind (hJ.lift (hJ.readers.loop (fun c _ => hJ.readers.clauseTurn c) trivial))
      fun c _ => ?_
    split
    · exact hJ.pure trivial
    · refine hJ.bind (hJ.lift (hJ.readers.readAlias _)) fun found _ => ?_
      obtain ⟨goesOn, produced⟩ := found
      refine Rules.of_ite (fun _ => Rules.of_ite (fun _ => ?_) fun _ => hend) fun _ =>
        hJ.pure trivial
      exact hJ.bind (hJ.registerClauses _ _ _ hs _) fun _ _ => hend

/-! ## Withdrawals -/

theorem undefMacro (isFunction : Bool) : J _ (undefMacro isFunction) fun _ => True := by
  refine hJ.bind (hJ.lift (hJ.readers.definitionName _)) fun name _ => ?_
  split
  · exact hJ.pure trivial
  · refine hJ.bind (hJ.lift hJ.readers.forgottenKind?) fun kind _ => ?_
    split
    · exact hJ.pure trivial
    · exact hJ.forgetMacro _

theorem undefOperator (keyword : Bool) : J _ (undefOperator keyword) fun _ => True := by
  refine hJ.bind (hJ.lift (hJ.readers.definitionName _)) fun name _ => ?_
  split
  · exact hJ.pure trivial
  · exact hJ.forgetOperator _ _

theorem finishUndef {p : Parser Unit} (hp : J _ p fun _ => True) :
    J _ (finishUndef p) (Statement.Placed A) :=
  hJ.bind hp fun _ _ => hJ.bind (hJ.lift (hJ.readers.expectEnd _)) fun _ _ => hJ.pure trivial

theorem undefStatement {start : Nat} (hs : A start) :
    J _ (undefStatement start) (Statement.Placed A) := by
  refine hJ.bind (hJ.lift (hJ.readers.next _ _)) fun token _ => ?_
  split
  · exact hJ.finishUndef (hJ.undefMacro _)
  · exact hJ.finishUndef (hJ.undefMacro _)
  · exact hJ.finishUndef (hJ.undefOperator _)
  · exact hJ.finishUndef (hJ.undefOperator _)
  · refine hJ.bind (hJ.lift (hJ.readers.next _ _)) fun path _ =>
      Rules.of_ite (fun _ => hJ.pure hs) fun _ => ?_
    exact hJ.finishUndef (hJ.lift (hJ.readers.error_skip _ _ _))
  · exact hJ.bind (hJ.lift (hJ.readers.error _)) fun _ _ =>
      hJ.bind (hJ.lift (hJ.readers.skipStatement _ _)) fun _ _ => hJ.pure trivial

theorem forM {α : Type} {f : α → Parser Unit} (hf : ∀ x, J _ (f x) fun _ => True) (xs : List α) :
    J _ (xs.forM f) fun _ => True := by
  induction xs with
  | nil => exact hJ.pure trivial
  | cons x xs ih => exact hJ.bind (hf x) fun _ _ => ih

theorem finishForget (start : Nat) (found : Option Definition) :
    J _ (finishImport start found .forget) fun _ => True := by
  cases found with
  | none => exact hJ.lift (hJ.readers.expectEnd _)
  | some d =>
    refine hJ.bind (hJ.forM hJ.forgetMacro d.macros.signatures) fun _ _ => ?_
    refine hJ.bind (hJ.forM (fun x => hJ.forgetOperator x.1 x.2) d.operators.spellings)
      fun _ _ => ?_
    exact hJ.lift (hJ.readers.expectEnd _)

/-- Statements fall under the judgement. -/
theorem statement : J _ statement (Statement.Placed A) := by
  refine hJ.bind (hJ.lift hJ.readers.discard) fun _ _ => ?_
  refine hJ.bind (hJ.lift (hJ.readers.next _ _)) fun token ht => ?_
  refine Rules.of_ite (fun _ => hJ.pure trivial) fun _ => ?_
  split
  · exact hJ.bind (hJ.macroStatement _ ht) fun _ _ => hJ.pure trivial
  · exact hJ.bind (hJ.macroStatement _ ht) fun _ _ => hJ.pure trivial
  · exact hJ.bind (hJ.operatorStatement _ ht) fun _ _ => hJ.pure trivial
  · exact hJ.bind (hJ.operatorStatement _ ht) fun _ _ => hJ.pure trivial
  · exact hJ.undefStatement ht
  · exact hJ.lift (hJ.readers.useStatement ht)
  · exact hJ.bind (hJ.valueStatement _) fun _ _ => hJ.pure trivial

end StatementRules

end ConfigScript.Parser
