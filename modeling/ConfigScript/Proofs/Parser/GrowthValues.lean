import ConfigScript.Proofs.Parser.Growth
import ConfigScript.Proofs.Parser.Rules

/-! # What reading values adds

Every reader of values extends the state it starts from, and so does skipping. -/

namespace ConfigScript.Parser

variable {α β : Type} {R : ParserState → ParserState → Prop} {inner : Parser (Option Node)}

/-- From every state, a parser leads to one that stands in a relation to it, with a value that has
a property. -/
def Reaches (R : ParserState → ParserState → Prop) (α : Type) (p : Parser α) (Q : α → Prop) :
    Prop :=
  ∀ s, Yields p s fun a t => R s t ∧ Q a

theorem Reaches.moves {p : Parser α} {Q : α → Prop} (h : Reaches R α p Q) : Moves R p :=
  fun s => (h s).1

theorem Moves.reaches {p : Parser α} (hp : Moves R p) {Q : α → Prop} (hq : ∀ a, Q a) :
    Reaches R α p Q :=
  fun s => ⟨hp s, hq _⟩

theorem Reaches.bind [IsPreorder ParserState R] {p : Parser α} {f : α → Parser β} {P : α → Prop}
    {Q : β → Prop} (hp : Reaches R α p P) (hf : ∀ a, P a → Reaches R β (f a) Q) :
    Reaches R β (p >>= f) Q :=
  fun s => Yields.bind (hp s) fun a t ht =>
    (hf a ht.2 t).mono fun _ _ hu => ⟨trans_of R ht.1 hu.1, hu.2⟩

theorem reportDuplicate_extends (key : String) (position : Nat) :
    Moves Extends (reportDuplicate key position) :=
  Moves.get_bind fun _ => report_extends _

theorem extends_rules : Rules (fun _ => True) (Reaches Extends) where
  pure h := fun s => ⟨.refl s, h⟩
  bind := Reaches.bind
  loop := by
    intro α step I a hstep ha s
    refine Yields.get_bind (Yields.of_turns_keep (I := fun a t => Extends s t ∧ I a)
      (fun a t ht => ?_) (fun _ t ht => ⟨ht.1.trans (exhaust_extends t), ht.2⟩) ⟨.refl s, ha⟩)
    refine (hstep a ht.2 t).mono fun r u hu => ?_
    cases r with
    | again b => exact ⟨ht.1.trans hu.1, hu.2⟩
    | done b => exact ⟨ht.1.trans hu.1, hu.2⟩
  next skipBreaks mode := (next_extends skipBreaks mode).reaches fun _ => trivial
  discard := discard_extends.reaches fun _ => trivial
  rewind again := (rewind_extends again).reaches fun _ => trivial
  bound := fun s => ⟨.refl s, trivial⟩
  exhaust := exhaust_extends.reaches fun _ => trivial
  levels hf := fun s => hf _ s
  reports _ := (addReports_extends _).reaches fun _ => trivial
  duplicate key position _ := (reportDuplicate_extends key position).reaches fun _ => trivial
  noteAccess n := (noteAccess_extends n).reaches fun _ => trivial
  noteLost marks := (noteLost_extends marks).reaches fun _ => trivial
  substitute := substitute_extends.reaches fun n => n.placed_true
  outside hp := fun s => Yields.of_outsideTemplate ((hp _).mono fun _ _ ht =>
    ⟨⟨ht.1.1, ht.1.2, ht.1.3, ht.1.4, ht.1.5, id, ht.1.7, ht.1.8, ht.1.9, ht.1.10, ht.1.11⟩, ht.2⟩)
  skipping hp := fun s => Yields.get_bind (Yields.modify_bind (Yields.bind (hp _) fun _ _ ht =>
    Yields.modify_bind (Yields.of_pure
      ⟨⟨ht.1.1, rfl, ht.1.3, ht.1.4, ht.1.5, ht.1.6, ht.1.7, ht.1.8, fun _ => ht.1.9 rfl, ht.1.10,
        ht.1.11⟩, ht.2⟩)))
  resolveParam? _ := (resolveParam?_extends _).reaches Rules.found_true
  callMacro kind _ _ _ := (callMacro_extends _ kind _).reaches fun n => n.placed_true

theorem skipTo_extends (hi : Moves Extends inner) (mode : ReadMode) (stop : StopAt) :
    Moves Extends (skipTo inner mode stop) :=
  (extends_rules.skipTo (hi.reaches Rules.found_true) mode stop).moves

theorem resume_extends (hi : Moves Extends inner) (mode : ReadMode) (closer : TokenKind) (a : α) :
    Moves Extends (resume inner mode closer a) :=
  (extends_rules.resume (hi.reaches Rules.found_true) mode closer (I := fun _ => True)
    trivial).moves

theorem exprOrError_extends (hi : Moves Extends inner) : Moves Extends (exprOrError inner) :=
  (extends_rules.exprOrError (hi.reaches Rules.found_true)).moves

theorem objectSeparator_extends (hi : Moves Extends inner) (props : List (String × Node)) :
    Moves Extends (objectSeparator inner props) :=
  (extends_rules.objectSeparator (hi.reaches Rules.found_true) fun q _ => q.2.placed_true).moves

theorem objectProperty_extends (hi : Moves Extends inner) (key : Token)
    (props : List (String × Node)) : Moves Extends (objectProperty inner key props) := by
  have h : Reaches Extends _ (objectProperty inner key props) _ :=
    extends_rules.objectProperty (hi.reaches Rules.found_true) trivial fun q _ => q.2.placed_true
  exact h.moves

theorem topCollection_extends : Moves Extends topCollection :=
  extends_rules.topCollection.moves

theorem skipStatement_extends (mode : ReadMode) (stop : StopAt) :
    Moves Extends (skipStatement mode stop) :=
  (extends_rules.skipStatement mode stop).moves

theorem skipStatement_reports (mode : ReadMode) (stop : StopAt) :
    Moves (fun s t => t.reports = s.reports) (skipStatement mode stop) := by
  intro s
  have hloop : Moves Extends (loop (skipTurn topCollection mode stop) false) :=
    (extends_rules.loop (I := fun _ => True) (fun b _ => extends_rules.skipTurn
      (topCollection_extends.reaches Rules.found_true) mode stop b) trivial).moves
  exact (hloop { s with recovering := true }).hushed rfl

end ConfigScript.Parser
