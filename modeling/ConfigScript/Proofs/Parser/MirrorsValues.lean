import ConfigScript.Proofs.Parser.CollectionsBack
import ConfigScript.Proofs.Parser.Mirrors
import ConfigScript.Proofs.Parser.ValueProgress

/-! # Values of one line in two places

Each reader of values does on a line closed as an object what it does on the line closed as a
list: where the first has nothing to report, the values agree, or the first run has come to the end
of its text. -/

namespace ConfigScript

namespace Node

/-- Properties that agree in everything but the information on their values. -/
structure PropertiesTwins (ps qs : List (String × Node)) : Prop where
  withoutInfo : withoutInfoProperties qs = withoutInfoProperties ps
  nodup : (Properties.keys ps).Nodup
  keyed : KeyedProperties ps

/-- Elements that agree in everything but the information on them. -/
structure ItemsTwins (xs ys : List Node) : Prop where
  withoutInfo : withoutInfoItems ys = withoutInfoItems xs
  keyed : KeyedItems xs

variable {m n : Node} {ps qs : List (String × Node)} {xs ys : List Node}

theorem keys_withoutInfo (ps : List (String × Node)) :
    Properties.keys (withoutInfoProperties ps) = Properties.keys ps := by
  rw [withoutInfoProperties_eq, Properties.keys, Properties.keys, List.map_map]
  rfl

theorem PropertiesTwins.keys_eq (h : PropertiesTwins ps qs) :
    Properties.keys qs = Properties.keys ps := by
  rw [← keys_withoutInfo, h.withoutInfo, keys_withoutInfo]

theorem PropertiesTwins.contains_eq (h : PropertiesTwins ps qs) (key : String) :
    Properties.contains key qs = Properties.contains key ps := by
  rw [Bool.eq_iff_iff, Properties.contains_iff, Properties.contains_iff, h.keys_eq]

theorem PropertiesTwins.put (h : PropertiesTwins ps qs) {key : String}
    (hk : key ∉ Properties.keys ps) (hn : m.Twins n) :
    PropertiesTwins (Properties.put key m ps) (Properties.put key n qs) := by
  rw [Properties.put_append hk, Properties.put_append (h.keys_eq ▸ hk)]
  refine ⟨?_, ?_, ?_⟩
  · have hps := h.withoutInfo
    rw [withoutInfoProperties_eq, withoutInfoProperties_eq] at hps ⊢
    rw [List.map_append, List.map_append, hps, List.map_singleton, List.map_singleton,
      hn.withoutInfo]
  · rw [Properties.keys, List.map_append, List.map_singleton]
    refine List.nodup_append.mpr ⟨h.nodup, by simp, fun a ha b hb hab => hk ?_⟩
    rw [hab, List.mem_singleton.mp hb] at ha
    exact ha
  · have hkeyed := keyedProperties_iff.mp h.keyed
    rw [keyedProperties_iff, List.forall_mem_append, List.forall_mem_singleton]
    exact ⟨hkeyed, hn.keyed⟩

theorem ItemsTwins.concat (h : ItemsTwins xs ys) (hn : m.Twins n) :
    ItemsTwins (xs ++ [m]) (ys ++ [n]) := by
  refine ⟨?_, ?_⟩
  · have hxs := h.withoutInfo
    rw [withoutInfoItems_eq, withoutInfoItems_eq] at hxs ⊢
    rw [List.map_append, List.map_append, hxs, List.map_singleton, List.map_singleton,
      hn.withoutInfo]
  · have hkeyed := keyedItems_iff.mp h.keyed
    rw [keyedItems_iff, List.forall_mem_append, List.forall_mem_singleton]
    exact ⟨hkeyed, hn.keyed⟩

end Node

namespace Parser

open Node

variable {α β : Type} {inner inner' operationInner operationInner' : Parser (Option Node)}
  {a b : Token} {m n : Node} {ps qs : List (String × Node)} {xs ys : List Node}

theorem twins_primitive (text : String) (i j : Nat) :
    ((Node.value text).placedAt i).Twins ((Node.value text).placedAt j) :=
  ⟨rfl, trivial⟩

theorem twins_object (h : PropertiesTwins ps qs) (name : String) (i j : Nat) :
    ((Node.object name ps {}).placedAt i).Twins ((Node.object name qs {}).placedAt j) := by
  refine ⟨?_, h.nodup, h.keyed⟩
  rw [withoutInfo_placedAt, withoutInfo_placedAt, withoutInfo, withoutInfo, h.withoutInfo]

theorem twins_list (h : ItemsTwins xs ys) (name : String) (op : Bool) (i j : Nat) :
    ((Node.list name op xs {}).placedAt i).Twins ((Node.list name op ys {}).placedAt j) := by
  refine ⟨?_, h.keyed⟩
  rw [withoutInfo_placedAt, withoutInfo_placedAt, withoutInfo, withoutInfo, h.withoutInfo]

/-! ## Literals -/

theorem primitiveValue_mirrors (hl : b.literal = a.literal) :
    Mirrors Alongside (fun m n t v => m.Twins n ∧ Alongside t v) (primitiveValue a)
      (primitiveValue b) := by
  have hmoves (token : Token) : Moves Extends (primitiveValue token) :=
    (extends_rules.primitiveValue trivial).moves
  refine Mirrors.step (hmoves a) (hmoves b) fun s u h => ?_
  refine (primitiveValue_quiet h.quiet a).mono fun m t ht => ?_
  refine (primitiveValue_quiet h.quiet' b).mono fun n v hv => ?_
  obtain ⟨rfl, rfl⟩ := ht
  obtain ⟨rfl, rfl⟩ := hv
  have htext : b.text = a.text := by rw [Token.text, Token.text, hl]
  rw [htext]
  exact ⟨twins_primitive _ _ _, h⟩

theorem Mirrors.still_spent {p q : Parser α} (hp : Moves Extends p) (hq : Moves Extends q)
    {D : α → Prop} (h : ∀ s, Yields p s fun a t => D a ∧ Still s t) :
    Mirrors (fun s _ => Spent s) (fun a _ t _ => D a ∧ Spent t) p q := by
  refine ⟨hp, hq, fun s u hs => ((hp s).and (h s)).mono fun a t ht => ?_⟩
  refine Yields.by_run fun _ _ _ _ => ⟨ht.2.1, ht.1.recovering.trans hs.recovering, ?_⟩
  rw [ht.2.2.tokenizer]
  exact hs.isOver

theorem primitiveValue_spent (a b : Token) :
    Mirrors (fun s _ => Spent s) (fun _ _ t _ => Spent t) (primitiveValue a)
      (primitiveValue b) := by
  have hmoves (token : Token) : Moves Extends (primitiveValue token) :=
    (extends_rules.primitiveValue trivial).moves
  refine (Mirrors.still_spent (hmoves a) (hmoves b) (D := fun _ => True) fun s => ?_).mono
    (fun _ _ => id) fun _ _ _ _ => And.right
  exact (primitiveValue_still a).mono fun _ _ ht => ⟨trivial, ht⟩

theorem isLiteral_eq (hl : b.literal = a.literal) : b.isLiteral = a.isLiteral := by
  rw [Token.isLiteral, Token.isLiteral, hl]

theorem not_isLiteral (hl : a.literal = none) : a.isLiteral = false := by
  rw [Token.isLiteral, hl]
  rfl

theorem literal_mirrors {C : β → β → ParserState → ParserState → Prop} {f g : Token → Parser β}
    {failed failed' : Parser β} {mode : ReadMode} (hm : mode ≠ .key)
    (hf : ∀ a b, b.literal = a.literal → Mirrors Alongside C (f a) (g b))
    (hspent : ∀ a b, Mirrors (fun s _ => Spent s) C (f a) (g b))
    (hfailed : Fails (fun s => s.recovering = false) failed) (hmoves : Moves Extends failed') :
    Mirrors Alongside C (next true mode >>= fun a => if a.isLiteral then f a else failed)
      (next true mode >>= fun b => if b.isLiteral then g b else failed') := by
  have hfail : Mirrors Alongside C failed failed' :=
    hfailed.mirrors hmoves fun _ _ h => h.recovering
  refine .next_bind hm (fun a b hk hl => ?_) (fun a b hk ha hb _ => ?_)
    fun a b hk hk' hl hl' => ?_
  · rw [isLiteral_eq hl]
    split
    · exact (hf a b hl).weaken fun _ _ hs => hs.2.1
    · exact hfail.weaken fun _ _ hs => hs.2.1
  · rw [if_pos ha, if_pos hb]
    exact (hspent a b).weaken fun _ _ hs => hs.spent
  · rw [if_neg (by simp [not_isLiteral hl]), if_neg (by simp [not_isLiteral hl'])]
    exact hfail.weaken fun _ _ hs => hs.toAlongside

/-- Reads a literal as a value. -/
def literalValue : Parser (Option Node) := do
  let token ← next true .value
  if token.isLiteral then return some (← primitiveValue token)
  else
    error "Expected value"
    rewind true
    return none

/-- What was found, or else a literal as a value. -/
def orLiteral : Option Node → Parser (Option Node)
  | some value => pure (some value)
  | none => rewind true >>= fun _ => literalValue

theorem expr_eq (inner : Parser (Option Node)) :
    expr inner = discard >>= fun _ => inner >>= orLiteral := by
  refine congrArg (discard >>= ·) (funext fun _ => congrArg (inner >>= ·) (funext fun found => ?_))
  cases found <;> rfl

theorem noValue_fails : Fails (fun s => s.recovering = false)
    (error "Expected value" >>= fun _ => rewind true >>= fun _ => pure (none : Option Node)) :=
  (error_fails _).bind fun _ => (rewind_extends _).bind fun _ => Moves.pure none

theorem literalValue_mirrors : Mirrors Alongside ValueTwins literalValue literalValue := by
  refine literal_mirrors (by decide) (fun a b hl => ?_) (fun a b => ?_) noValue_fails
    noValue_fails.moves
  · exact (primitiveValue_mirrors hl).bind fun m n => .pure fun _ _ h => .some h.1 h.2
  · exact (primitiveValue_spent a b).bind fun m n => .pure fun _ _ => .spent

theorem orLiteral_extends (found : Option Node) : Moves Extends (orLiteral found) := by
  cases found with
  | none => exact (rewind_extends _).bind fun _ => literalValue_mirrors.left
  | some value => exact Moves.pure _

theorem orLiteral_mirrors (hi : Mirrors Alongside FindsTwins inner inner') :
    Mirrors Alongside ValueTwins (inner >>= orLiteral) (inner' >>= orLiteral) := by
  refine hi.option_bind ((rewind_mirrors true).bind fun _ _ => literalValue_mirrors)
    (fun m n => .pure fun _ _ h => .some h.1 h.2) fun m found => ?_
  exact .of_left (orLiteral_extends found) fun _ _ _ => .spent

theorem expr_mirrors (hi : Mirrors Alongside FindsTwins inner inner') :
    Mirrors Alongside ValueTwins (expr inner) (expr inner') := by
  rw [expr_eq, expr_eq]
  refine (discard_mirrors.mono (fun _ _ => id) fun _ _ _ _ => And.left).bind fun _ _ => ?_
  exact orLiteral_mirrors hi

theorem exprOrError_mirrors (hi : Mirrors Alongside FindsTwins inner inner') :
    Mirrors Alongside (ReadsTwins Node.Twins) (exprOrError inner) (exprOrError inner') := by
  refine (expr_mirrors hi).some_bind substitute_extends (fun m n => .pure fun _ _ => .inl)
    fun m found => .of_left ?_ fun _ _ _ => .inr
  cases found with
  | none => exact substitute_extends
  | some n => exact Moves.pure n

theorem passComma_extends (mode : ReadMode) (again : Token → Bool) (x : α) :
    Moves Extends (discard >>= fun _ => next true mode >>= fun token =>
      if token.kind != .comma then rewind (again token) >>= fun _ => pure x else pure x) :=
  (extends_rules.passComma mode again (Q := fun _ => True) trivial).moves

/-! ## Entries of collections -/

/-- The brackets that close a collection. -/
def isCloser (kind : TokenKind) : Bool :=
  kind == .rightBrace || kind == .rightBracket || kind == .rightParen

theorem isSign_of_isCloser {kind : TokenKind} (h : isCloser kind = true) : kind.isSign = true := by
  cases kind <;> first | rfl | exact absurd h (by decide)

theorem ne_of_isCloser {k l : TokenKind} (hk : isCloser k = true) (hl : isCloser l = false) :
    k ≠ l := by
  rintro rfl
  exact absurd (hk.symm.trans hl) (by decide)

/-- What the token that separates an entry from the next decides. -/
def separatorTurn (unterminated : String) (closer : TokenKind) (x : α)
    (breaks other : Parser (Turn α)) (token : Token) : Parser (Turn α) :=
  if token.kind = .lineBreak then breaks
  else if token.kind = .comma then pure (.again x)
  else if token.kind = .endOfFile then error unterminated >>= fun _ => pure (.done x)
  else if token.kind = closer then pure (.done x)
  else other

/-- What the first token of an entry decides. -/
def entryTurn (unterminated : String) (closer : TokenKind) (x : α)
    (entry : Token → Parser (Turn α)) (token : Token) : Parser (Turn α) :=
  if token.kind = .endOfFile then error unterminated >>= fun _ => pure (.done x)
  else if token.kind = closer then pure (.done x)
  else if token.kind = .comma then error "Redundant comma" >>= fun _ => pure (.again x)
  else entry token

section

variable {R : α → α → Prop} {x y : α} {closer : TokenKind} {unterminated : String}
  {breaks breaks' other other' : Parser (Turn α)} {entry entry' : Token → Parser (Turn α)}
  {mode : ReadMode}

theorem unterminated_fails (message : String) (x : α) : Fails (fun s => s.recovering = false)
    (error message >>= fun _ => pure (Turn.done x)) :=
  (error_fails _).bind fun _ => Moves.pure _

theorem separatorTurn_extends (hb : Moves Extends breaks) (ho : Moves Extends other) (a : Token) :
    Moves Extends (separatorTurn unterminated closer x breaks other a) :=
  .ite hb (.ite (Moves.pure _) (.ite (unterminated_fails _ _).moves (.ite (Moves.pure _) ho)))

theorem separatorTurn_comma (ha : a.kind = .comma) :
    separatorTurn unterminated closer x breaks other a = pure (.again x) := by
  simp [separatorTurn, ha]

theorem separatorTurn_closer (hc : isCloser closer = true) (ha : a.kind = closer) :
    separatorTurn unterminated closer x breaks other a = pure (.done x) := by
  rw [separatorTurn, ha, if_neg (ne_of_isCloser hc rfl), if_neg (ne_of_isCloser hc rfl),
    if_neg (ne_of_isCloser hc rfl), if_pos rfl]

theorem separatorTurn_fails (ho : Fails (fun s => s.recovering = false) other)
    (hline : a.kind ≠ .lineBreak) (hcomma : a.kind ≠ .comma) (hcloser : a.kind ≠ closer) :
    Fails (fun s => s.recovering = false) (separatorTurn unterminated closer x breaks other a) := by
  rw [separatorTurn, if_neg hline, if_neg hcomma, if_neg hcloser]
  split
  · exact unterminated_fails _ _
  · exact ho

theorem separator_mirrors (hm : mode ≠ .key) (hc : isCloser closer = true)
    (hb : Moves Extends breaks) (hb' : Moves Extends breaks')
    (ho : Fails (fun s => s.recovering = false) other)
    (ho' : Fails (fun s => s.recovering = false) other') :
    Mirrors (fun s u => R x y ∧ Alongside s u) (TurnsTwins R)
      (next false mode >>= separatorTurn unterminated closer x breaks other)
      (next false mode >>= separatorTurn unterminated closer y breaks' other') := by
  have hleft (a : Token) : Moves Extends (separatorTurn unterminated closer x breaks other a) :=
    separatorTurn_extends hb ho.moves a
  have hright (b : Token) : Moves Extends (separatorTurn unterminated closer y breaks' other' b) :=
    separatorTurn_extends hb' ho'.moves b
  have hfails {a b : Token} (hline : a.kind ≠ .lineBreak) (hcomma : a.kind ≠ .comma)
      (hcloser : a.kind ≠ closer) : Mirrors Alongside (TurnsTwins R)
        (separatorTurn unterminated closer x breaks other a)
        (separatorTurn unterminated closer y breaks' other' b) :=
    (separatorTurn_fails ho hline hcomma hcloser).mirrors (hright b) fun _ _ h => h.recovering
  refine .intro ((next_extends _ _).bind hleft) ((next_extends _ _).bind hright) fun hR => ?_
  refine .next_bind hm (fun a b hk _ => ?_) (fun a b hk _ _ hs => ?_) fun a b hk hk' _ _ => ?_
  · by_cases hline : a.kind = .lineBreak
    · exact .of_false (hleft a) (hright b) fun _ _ h => h.1 hline
    · refine Mirrors.weaken ?_ fun _ _ h => h.2.1
      by_cases hcomma : a.kind = .comma
      · rw [separatorTurn_comma hcomma, separatorTurn_comma (hk.trans hcomma)]
        exact .pure fun _ _ h => .inl ⟨hR, h⟩
      · by_cases hcloser : a.kind = closer
        · rw [separatorTurn_closer hc hcloser, separatorTurn_closer hc (hk.trans hcloser)]
          exact .pure fun _ _ h => .inl ⟨hR, h⟩
        · exact hfails hline hcomma hcloser
  · refine (hfails ?_ ?_ ?_).weaken fun _ _ h => h.toAlongside
    · exact TokenKind.ne_of_isSign hs rfl
    · exact TokenKind.ne_of_isSign hs rfl
    · exact TokenKind.ne_of_isSign hs (isSign_of_isCloser hc)
  · by_cases hcloser : a.kind = closer
    · rw [separatorTurn_closer hc hcloser]
      exact (Mirrors.of_left (hright b) fun _ _ _ h => .inr ⟨⟨x, rfl⟩, h⟩).weaken
        fun _ _ h => h.spent
    · exact (hfails (by simp [hk]) (by simp [hk]) hcloser).weaken fun _ _ h => h.toAlongside

theorem separator_spent (hc : isCloser closer = true) (hb : Moves Extends breaks)
    (ho : Fails (fun s => s.recovering = false) other) :
    Fails Spent (next false mode >>= separatorTurn unterminated closer x breaks other) := by
  refine .next_spent (separatorTurn_extends hb ho.moves) fun a ha => ?_
  refine (separatorTurn_fails ho ?_ ?_ ?_).weaken fun _ h => h.recovering
  · simp [ha]
  · simp [ha]
  · rw [ha]
    exact (ne_of_isCloser hc rfl).symm

theorem redundant_fails (x : α) : Fails (fun s => s.recovering = false)
    (error "Redundant comma" >>= fun _ => pure (Turn.again x)) :=
  (error_fails _).bind fun _ => Moves.pure _

theorem entryTurn_extends (he : ∀ a, Moves Extends (entry a)) (a : Token) :
    Moves Extends (entryTurn unterminated closer x entry a) :=
  .ite (unterminated_fails _ _).moves
    (.ite (Moves.pure _) (.ite (redundant_fails _).moves (he a)))

theorem entryTurn_closer (hc : isCloser closer = true) (ha : a.kind = closer) :
    entryTurn unterminated closer x entry a = pure (.done x) := by
  rw [entryTurn, ha, if_neg (ne_of_isCloser hc rfl), if_pos rfl]

theorem entryTurn_entry (hend : a.kind ≠ .endOfFile) (hcloser : a.kind ≠ closer)
    (hcomma : a.kind ≠ .comma) : entryTurn unterminated closer x entry a = entry a := by
  rw [entryTurn, if_neg hend, if_neg hcloser, if_neg hcomma]

theorem entryTurn_word (hc : isCloser closer = true) (ha : a.kind.isSign = false) :
    entryTurn unterminated closer x entry a = entry a :=
  entryTurn_entry (TokenKind.ne_of_isSign ha rfl)
    (TokenKind.ne_of_isSign ha (isSign_of_isCloser hc)) (TokenKind.ne_of_isSign ha rfl)

theorem entryTurn_mirrors (hc : isCloser closer = true) (hR : R x y) (hk : b.kind = a.kind)
    (h : Mirrors Alongside (TurnsTwins R) (entry a) (entry' b)) :
    Mirrors Alongside (TurnsTwins R) (entryTurn unterminated closer x entry a)
      (entryTurn unterminated closer y entry' b) := by
  by_cases hcloser : a.kind = closer
  · rw [entryTurn_closer hc hcloser, entryTurn_closer hc (hk.trans hcloser)]
    exact .pure fun _ _ hs => .inl ⟨hR, hs⟩
  · rw [entryTurn, entryTurn, hk, if_neg hcloser, if_neg hcloser]
    split
    · exact (unterminated_fails _ _).mirrors (unterminated_fails _ _).moves
        fun _ _ hs => hs.recovering
    · split
      · exact (redundant_fails _).mirrors (redundant_fails _).moves fun _ _ hs => hs.recovering
      · exact h

/-- Where the last bracket of the object closes the collection, the first run has come to its
end. -/
theorem entryTurn_spent (hc : isCloser closer = true) (ha : a.kind = closer)
    (he : ∀ b, Moves Extends (entry' b)) :
    Mirrors (fun s _ => Spent s) (TurnsTwins R) (entryTurn unterminated closer x entry a)
      (entryTurn unterminated closer y entry' b) := by
  rw [entryTurn_closer hc ha]
  exact .of_left (entryTurn_extends he b) fun _ _ _ ht => .inr ⟨⟨x, rfl⟩, ht⟩

end

/-! ## Objects -/

theorem objectSeparator_eq (inner : Parser (Option Node)) (ps : List (String × Node)) :
    objectSeparator inner ps = next false .unexpected >>=
      separatorTurn "Unterminated object" .rightBrace ps
        (discard >>= fun _ => next true .key >>= fun token =>
          if token.kind != .comma then rewind false >>= fun _ => pure (.again ps)
          else pure (.again ps))
        (error "Each object property should be separated with either line breaks or ','" >>=
          fun _ => resume inner .key .rightBrace ps) := by
  refine congrArg (next false .unexpected >>= ·) (funext fun a => ?_)
  unfold separatorTurn
  cases a.kind <;> rfl

theorem objectSeparator_fails (hi : Moves Extends inner) (ps : List (String × Node)) :
    Fails (fun s => s.recovering = false)
      (error "Each object property should be separated with either line breaks or ','" >>=
        fun _ => resume inner .key .rightBrace ps) :=
  (error_fails _).bind fun _ => resume_extends hi _ _ _

theorem objectSeparator_mirrors (hi : Moves Extends inner) (hi' : Moves Extends inner')
    (ps qs : List (String × Node)) :
    Mirrors (fun s u => PropertiesTwins ps qs ∧ Alongside s u) (TurnsTwins PropertiesTwins)
      (objectSeparator inner ps) (objectSeparator inner' qs) := by
  rw [objectSeparator_eq, objectSeparator_eq]
  exact separator_mirrors (by decide) rfl (passComma_extends _ (fun _ => false) _)
    (passComma_extends _ (fun _ => false) _) (objectSeparator_fails hi ps)
    (objectSeparator_fails hi' qs)

theorem objectSeparator_spent (hi : Moves Extends inner) (ps : List (String × Node)) :
    Fails Spent (objectSeparator inner ps) := by
  rw [objectSeparator_eq]
  exact separator_spent rfl (passComma_extends _ (fun _ => false) _) (objectSeparator_fails hi ps)

/-- Reads the value of a property, behind the colon. -/
def behindColon (inner : Parser (Option Node)) (key : Token) (props : List (String × Node)) :
    Parser (Turn (List (String × Node))) := do
  let duplicate := Properties.contains key.text props
  if duplicate then reportDuplicate key.text key.start
  let value ← exprOrError inner
  noteLost (if duplicate then value.marks else [])
  objectSeparator inner (if duplicate then props else Properties.put key.text value props)

/-- Reads on where a colon is missing. -/
def missingColon (inner : Parser (Option Node)) (props : List (String × Node)) :
    Parser (Turn (List (String × Node))) := do
  error "Expected ':' after property key"
  rewind false
  resume inner .unexpected .rightBrace props

theorem objectProperty_eq (inner : Parser (Option Node)) (key : Token)
    (ps : List (String × Node)) :
    objectProperty inner key ps = discard >>= fun _ => next true .unexpected >>= fun token =>
      if token.kind != .colon then missingColon inner ps else behindColon inner key ps := rfl

theorem missingColon_fails (hi : Moves Extends inner) (ps : List (String × Node)) :
    Fails (fun s => s.recovering = false) (missingColon inner ps) :=
  (error_fails _).bind fun _ => (rewind_extends _).bind fun _ => resume_extends hi _ _ _

theorem behindColon_eq {key : Token} (h : Properties.contains key.text ps = false) :
    behindColon inner key ps = exprOrError inner >>= fun value =>
      objectSeparator inner (Properties.put key.text value ps) := by
  unfold behindColon
  simp only [h, Bool.false_eq_true, if_false, noteLost_nil, pure_bind]

theorem behindColon_duplicate (hi : Moves Extends inner) {key : Token}
    (h : Properties.contains key.text ps = true) :
    Fails (fun s => s.recovering = false) (behindColon inner key ps) := by
  unfold behindColon
  simp only [h]
  exact (reportDuplicate_fails _ _).bind fun _ => (exprOrError_extends hi).bind fun _ =>
    (noteLost_extends _).bind fun _ => objectSeparator_extends hi _

theorem behindColon_extends (hi : Moves Extends inner) (key : Token) (ps : List (String × Node)) :
    Moves Extends (behindColon inner key ps) := by
  cases h : Properties.contains key.text ps with
  | true => exact (behindColon_duplicate hi h).moves
  | false =>
    rw [behindColon_eq h]
    exact (exprOrError_extends hi).bind fun _ => objectSeparator_extends hi _

theorem behindColon_mirrors (hi : Mirrors Alongside FindsTwins inner inner')
    (hl : b.literal = a.literal) (h : PropertiesTwins ps qs) :
    Mirrors Alongside (TurnsTwins PropertiesTwins) (behindColon inner a ps)
      (behindColon inner' b qs) := by
  have hkey : b.text = a.text := by rw [Token.text, Token.text, hl]
  cases hc : Properties.contains a.text ps with
  | true =>
    exact (behindColon_duplicate hi.left hc).mirrors (behindColon_extends hi.right b qs)
      fun _ _ h => h.recovering
  | false =>
    have hc' : Properties.contains b.text qs = false := by rw [hkey, h.contains_eq, hc]
    have hnot : a.text ∉ Properties.keys ps := fun hmem => by
      simp [Properties.contains_iff.mpr hmem] at hc
    rw [behindColon_eq hc, behindColon_eq hc', hkey]
    refine (exprOrError_mirrors hi).value_bind (fun m n => ?_) fun m n => ?_
    · exact (objectSeparator_mirrors hi.left hi.right _ _).weaken fun _ _ hs =>
        ⟨h.put hnot hs.1, hs.2⟩
    · exact (objectSeparator_spent hi.left _).mirrors (objectSeparator_extends hi.right _)
        fun _ _ => id

theorem objectProperty_fails {A : ParserState → Prop} (hi : Moves Extends inner) (key : Token)
    (ps : List (String × Node)) (hA : ∀ s, A s → s.recovering = false)
    (h : ∀ s, A s → Yields (next true .unexpected) { s with tokenizer := s.tokenizer.discard }
      fun a _ => a.kind ≠ .colon) : Fails A (objectProperty inner key ps) := by
  refine ⟨objectProperty_extends hi key ps, fun s hs => ?_⟩
  rw [objectProperty_eq]
  refine Yields.modify_bind (Yields.bind ((next_extends _ _ _).and (h s hs)) fun a t ht => ?_)
  rw [if_pos (by simpa using ht.2)]
  exact (missingColon_fails hi ps).loud t (ht.1.recovering.trans (hA s hs))

theorem objectProperty_mirrors (hi : Mirrors Alongside FindsTwins inner inner')
    (hl : b.literal = a.literal) (h : PropertiesTwins ps qs) :
    Mirrors Alongside (TurnsTwins PropertiesTwins) (objectProperty inner a ps)
      (objectProperty inner' b qs) := by
  have hfail {c d : Token} (hc : c.kind ≠ .colon) : Mirrors Alongside (TurnsTwins PropertiesTwins)
      (if c.kind != .colon then missingColon inner ps else behindColon inner a ps)
      (if d.kind != .colon then missingColon inner' qs else behindColon inner' b qs) := by
    rw [if_pos (by simpa using hc)]
    refine (missingColon_fails hi.left ps).mirrors ?_ fun _ _ h => h.recovering
    exact .ite (missingColon_fails hi.right qs).moves (behindColon_extends hi.right b qs)
  rw [objectProperty_eq, objectProperty_eq]
  refine .discard_next (by decide) (fun c d hk _ => ?_) (fun c d hk _ _ hs => ?_)
    fun c d hk hk' _ _ => ?_
  · by_cases hc : c.kind = .colon
    · rw [if_neg (by simp [hc]), if_neg (by simp [hk, hc])]
      exact behindColon_mirrors hi hl h
    · exact hfail hc
  · exact (hfail (TokenKind.ne_of_isSign hs rfl)).weaken fun _ _ hs => hs.toAlongside
  · exact (hfail (by simp [hk])).weaken fun _ _ hs => hs.1.toAlongside

theorem objectProperty_spent (hi : Moves Extends inner) (key : Token)
    (ps : List (String × Node)) : Fails Spent (objectProperty inner key ps) :=
  objectProperty_fails hi key ps (fun _ hs => hs.recovering) fun _ hs =>
    (next_spent hs.discard _ _).mono fun _ _ ht => by simp [ht.1]

theorem next_handed (s : ParserState) (skipBreaks : Bool) (mode : ReadMode) :
    Yields (next skipBreaks mode) s fun a t =>
      a = (s.tokenizer.next skipBreaks mode s.visible.operators).1
        ∧ t.tokenizer
          = (s.tokenizer.next skipBreaks mode s.visible.operators).2.takeReports.2 :=
  Yields.get_bind (Yields.set_bind (Yields.bind (addReports_still _) fun _ _ ht =>
    Yields.of_pure ⟨rfl, ht.tokenizer⟩))

/-- Behind the last key of the object no colon follows. -/
theorem objectProperty_closes (hi : Moves Extends inner) (key : Token)
    (ps : List (String × Node)) :
    Fails (fun s => Tokenizer.ClosesObject key s.tokenizer ∧ s.recovering = false)
      (objectProperty inner key ps) := by
  refine objectProperty_fails hi key ps (fun _ hs => hs.2) fun s hs => ?_
  obtain ⟨⟨hahead, hcloses, hreports⟩, -⟩ := hs
  have hkind {text : List Char} {kind : TokenKind} (hrest : s.tokenizer.cursor.rest = text)
      (hl : Scan.Lexes .unexpected text kind none [] s.visible.operators) (hb : kind ≠ .lineBreak) :
      (s.tokenizer.discard.next true .unexpected s.visible.operators).1.kind = kind := by
    have hp : s.tokenizer.discard.Poised .unexpected text s.visible.operators :=
      .unread ⟨hahead, hrest⟩
    obtain ⟨start, htoken, -⟩ := hp.next hl hreports fun _ => hb
    rw [htoken]
  have hrest : s.tokenizer.cursor.rest = ['}'] ∨ s.tokenizer.cursor.rest = [] := by
    cases hcloses with
    | brace kind after => exact .inr after
    | key kind isLiteral after => simpa [List.suffix_cons_iff] using after
  refine (next_handed _ _ _).mono fun a _ ha => ?_
  rw [ha.1]
  rcases hrest with hrest | hrest
  · rw [hkind hrest (Scan.lexes_sign rfl []) (by decide)]
    decide
  · rw [hkind hrest (Scan.lexes_end _) (by decide)]
    decide

/-- Reads a property behind its first token. -/
def objectKey (inner : Parser (Option Node)) (props : List (String × Node)) (key : Token) :
    Parser (Turn (List (String × Node))) :=
  if key.isLiteral then objectProperty inner key props
  else error "Expected property key" >>= fun _ => resume inner .key .rightBrace props

theorem objectEntry_eq (inner : Parser (Option Node)) (ps : List (String × Node)) :
    objectEntry inner ps = next true .key >>=
      entryTurn "Unterminated object" .rightBrace ps (objectKey inner ps) := by
  refine congrArg (next true .key >>= ·) (funext fun a => ?_)
  unfold entryTurn
  cases a.kind <;> rfl

theorem objectKey_fails (hi : Moves Extends inner) (ps : List (String × Node))
    (ha : a.isLiteral = false) : Fails (fun s => s.recovering = false) (objectKey inner ps a) := by
  rw [objectKey, if_neg (by simp [ha])]
  exact (error_fails _).bind fun _ => resume_extends hi _ _ _

theorem objectKey_extends (hi : Moves Extends inner) (ps : List (String × Node)) (a : Token) :
    Moves Extends (objectKey inner ps a) :=
  .ite (objectProperty_extends hi a ps)
    ((error_fails _).bind fun _ => resume_extends hi _ _ _).moves

theorem objectEntry_extends (hi : Moves Extends inner) (ps : List (String × Node)) :
    Moves Extends (objectEntry inner ps) := by
  rw [objectEntry_eq]
  exact (next_extends _ _).bind (entryTurn_extends (objectKey_extends hi ps))

theorem objectKey_mirrors (hi : Mirrors Alongside FindsTwins inner inner')
    (hl : b.literal = a.literal) (h : PropertiesTwins ps qs) :
    Mirrors Alongside (TurnsTwins PropertiesTwins) (objectKey inner ps a)
      (objectKey inner' qs b) := by
  cases ha : a.isLiteral with
  | true =>
    rw [objectKey, objectKey, if_pos ha, if_pos (by rwa [isLiteral_eq hl])]
    exact objectProperty_mirrors hi hl h
  | false =>
    exact (objectKey_fails hi.left ps ha).mirrors (objectKey_extends hi.right qs b)
      fun _ _ hs => hs.recovering

theorem objectEntry_mirrors (hi : Mirrors Alongside FindsTwins inner inner')
    (ps qs : List (String × Node)) :
    Mirrors (fun s u => PropertiesTwins ps qs ∧ Alongside s u) (TurnsTwins PropertiesTwins)
      (objectEntry inner ps) (objectEntry inner' qs) := by
  have hleft (a : Token) : Moves Extends
      (entryTurn "Unterminated object" .rightBrace ps (objectKey inner ps) a) :=
    entryTurn_extends (objectKey_extends hi.left ps) a
  have hright (b : Token) : Moves Extends
      (entryTurn "Unterminated object" .rightBrace qs (objectKey inner' qs) b) :=
    entryTurn_extends (objectKey_extends hi.right qs) b
  rw [objectEntry_eq, objectEntry_eq]
  refine .intro ((next_extends _ _).bind hleft) ((next_extends _ _).bind hright) fun h => ?_
  have hproperty {a : Token} (b : Token) {D : ParserState → Prop} (hw : a.kind.isSign = false)
      (ha : a.isLiteral = true) (hfails : Fails D (objectProperty inner a ps)) :
      Mirrors (fun s _ => D s) (TurnsTwins PropertiesTwins)
        (entryTurn "Unterminated object" .rightBrace ps (objectKey inner ps) a)
        (entryTurn "Unterminated object" .rightBrace qs (objectKey inner' qs) b) := by
    rw [entryTurn_word rfl hw, objectKey, if_pos ha]
    exact hfails.mirrors (hright b) fun _ _ => id
  refine .of_next (L := fun _ => True) (fun _ _ => id) (fun _ _ _ => trivial)
    (fun a b hk hl => ?_) (fun a b hk ha hb hw => ?_) (fun a b hk hk' _ _ => ?_) fun _ a b => ?_
  · exact (entryTurn_mirrors rfl h hk (objectKey_mirrors hi hl h)).weaken
      fun _ _ hs => hs.2.1
  · exact (hproperty b hw ha (objectProperty_spent hi.left a ps)).weaken fun _ _ hs => hs.spent
  · exact (entryTurn_spent rfl hk (objectKey_extends hi.right qs)).weaken fun _ _ hs => hs.1.spent
  · by_cases ha : a.kind = .rightBrace
    · exact (entryTurn_spent rfl ha (objectKey_extends hi.right qs)).weaken
        fun t _ ht => ⟨ht.2, ht.1.isOver ha⟩
    · by_cases hkey : a.kind = .key ∧ a.isLiteral = true
      · exact hproperty b (by rw [hkey.1]; rfl) hkey.2 (objectProperty_closes hi.left a ps)
      · refine .of_false (hleft a) (hright b) fun t _ ht => ?_
        cases ht.1.closes with
        | brace kind => exact ha kind
        | key kind isLiteral => exact hkey ⟨kind, isLiteral⟩

theorem object_mirrors (hi : Mirrors Alongside FindsTwins inner inner') (name : String)
    (i j : Nat) :
    Mirrors Alongside (ReadsTwins Node.Twins) (object inner name i) (object inner' name j) := by
  have hloop := Mirrors.loop (objectEntry_mirrors hi) [] []
  refine (hloop.weaken fun _ _ h => ⟨⟨rfl, List.nodup_nil, trivial⟩, h⟩).value_bind
    (fun ps qs => .pure fun _ _ h => .inl ⟨twins_object h.1 name i j, h.2⟩)
    fun ps qs => .pure fun _ _ => .inr

/-! ## Lists -/

theorem listSeparator_eq (inner : Parser (Option Node)) (xs : List Node) :
    listSeparator inner xs = next false .unexpected >>=
      separatorTurn "Unterminated list" .rightBracket xs
        (discard >>= fun _ => next true .unexpected >>= fun token =>
          if token.kind != .comma then
            rewind (token.kind == .unexpected) >>= fun _ => pure (.again xs)
          else pure (.again xs))
        (error "Each value should be separated with either line breaks or ','" >>=
          fun _ => resume inner .value .rightBracket xs) := by
  refine congrArg (next false .unexpected >>= ·) (funext fun a => ?_)
  unfold separatorTurn
  cases a.kind <;> rfl

theorem listSeparator_fails (hi : Moves Extends inner) (xs : List Node) :
    Fails (fun s => s.recovering = false)
      (error "Each value should be separated with either line breaks or ','" >>=
        fun _ => resume inner .value .rightBracket xs) :=
  (error_fails _).bind fun _ => resume_extends hi _ _ _

theorem listSeparator_mirrors (hi : Moves Extends inner) (hi' : Moves Extends inner')
    (xs ys : List Node) :
    Mirrors (fun s u => ItemsTwins xs ys ∧ Alongside s u) (TurnsTwins ItemsTwins)
      (listSeparator inner xs) (listSeparator inner' ys) := by
  rw [listSeparator_eq, listSeparator_eq]
  exact separator_mirrors (by decide) rfl (passComma_extends _ _ _) (passComma_extends _ _ _)
    (listSeparator_fails hi xs) (listSeparator_fails hi' ys)

theorem listSeparator_spent (hi : Moves Extends inner) (xs : List Node) :
    Fails Spent (listSeparator inner xs) := by
  rw [listSeparator_eq]
  exact separator_spent rfl (passComma_extends _ _ _) (listSeparator_fails hi xs)

/-- Reads the value of an element behind its first token, and what separates it from the next. -/
def listValue (inner : Parser (Option Node)) (items : List Node) (token : Token) :
    Parser (Turn (List Node)) := do
  rewind (token.kind == .unexpected)
  match ← expr inner with
  | some value => listSeparator inner (items ++ [value])
  | none => listSeparator inner items

theorem listEntry_eq (inner : Parser (Option Node)) (xs : List Node) :
    listEntry inner xs = discard >>= fun _ => next true .unexpected >>=
      entryTurn "Unterminated list" .rightBracket xs (listValue inner xs) := by
  refine congrArg (discard >>= ·) (funext fun _ => ?_)
  refine congrArg (next true .unexpected >>= ·) (funext fun a => ?_)
  have h : a = ⟨a.kind, a.start, a.literal⟩ := rfl
  rw [h]
  unfold entryTurn listValue
  cases a.kind <;> rfl

/-- The bracket that closes the object comes next, and is kept. -/
structure AwaitsBracket (s : ParserState) : Prop where
  recovering : s.recovering = false
  kept : ∃ e es, s.tokenizer.ahead = e :: es ∧ e.1.kind = .rightBrace ∧ e.1.literal = none
    ∧ (Scan.skipBlank e.2.pos e.2.rest).1.rest = ['}']

theorem listValue_mirrors (hi : Mirrors Alongside FindsTwins inner inner')
    (hk : b.kind = a.kind) (h : ItemsTwins xs ys) :
    Mirrors Alongside (TurnsTwins ItemsTwins) (listValue inner xs a) (listValue inner' ys b) := by
  unfold listValue
  rw [hk]
  refine (rewind_mirrors _).bind fun _ _ => (expr_mirrors hi).some_bind
    (listSeparator_spent hi.left xs).moves (fun m n => ?_) fun m found => ?_
  · exact (listSeparator_mirrors hi.left hi.right _ _).weaken fun _ _ hs => ⟨h.concat hs.1, hs.2⟩
  · refine (listSeparator_spent hi.left _).mirrors ?_ fun _ _ => id
    cases found with
    | none => exact (listSeparator_spent hi.right ys).moves
    | some n => exact (listSeparator_spent hi.right _).moves

theorem listValue_extends (hi : Moves Extends inner) (xs : List Node) (a : Token) :
    Moves Extends (listValue inner xs a) := by
  have hseparator (zs : List Node) : Moves Extends (listSeparator inner zs) :=
    (listSeparator_spent hi zs).moves
  refine (rewind_extends _).bind fun _ =>
    (extends_rules.expr (hi.reaches Rules.found_true)).moves.bind fun found => ?_
  cases found with
  | none => exact hseparator _
  | some value => exact hseparator _

theorem listEntry_extends (hi : Moves Extends inner) (xs : List Node) :
    Moves Extends (listEntry inner xs) := by
  rw [listEntry_eq]
  exact discard_extends.bind fun _ =>
    (next_extends _ _).bind (entryTurn_extends (listValue_extends hi xs))

theorem listValue_fails (hi : Moves Extends inner) (hb : Fails AwaitsBracket (expr inner))
    (ha : a.kind = .rightBrace) (hl : a.literal = none) :
    Fails (fun s => s.recovering = false ∧ HoldsBracket a s) (listValue inner xs a) := by
  have hseparator (zs : List Node) : Moves Extends (listSeparator inner zs) :=
    (listSeparator_spent hi zs).moves
  refine .after (rewind_extends _) (fun s hs => ?_) fun _ => hb.bind fun found => ?_
  · obtain ⟨hr, place, htaken, hlast⟩ := hs
    refine Yields.of_modify ⟨hr, (a, place), s.tokenizer.ahead, ?_, ha, hl, hlast⟩
    simp [ha, Tokenizer.replay, htaken]
  · cases found with
    | none => exact hseparator _
    | some value => exact hseparator _

theorem listEntry_mirrors (hi : Mirrors Alongside FindsTwins inner inner')
    (hb : Fails AwaitsBracket (expr inner)) (xs ys : List Node) :
    Mirrors (fun s u => ItemsTwins xs ys ∧ Alongside s u) (TurnsTwins ItemsTwins)
      (listEntry inner xs) (listEntry inner' ys) := by
  have hleft (a : Token) : Moves Extends
      (entryTurn "Unterminated list" .rightBracket xs (listValue inner xs) a) :=
    entryTurn_extends (listValue_extends hi.left xs) a
  have hright (b : Token) : Moves Extends
      (entryTurn "Unterminated list" .rightBracket ys (listValue inner' ys) b) :=
    entryTurn_extends (listValue_extends hi.right ys) b
  rw [listEntry_eq, listEntry_eq]
  refine .intro (discard_extends.bind fun _ => (next_extends _ _).bind hleft)
    (discard_extends.bind fun _ => (next_extends _ _).bind hright) fun h => ?_
  refine .discard_next (by decide) (fun a b hk _ => ?_) (fun a b hk _ _ hw => ?_)
    fun a b hk hk' hl _ => ?_
  · exact entryTurn_mirrors rfl h hk (listValue_mirrors hi hk h)
  · rw [entryTurn_word rfl hw, entryTurn_word rfl (by rwa [hk])]
    exact (listValue_mirrors hi hk h).weaken fun _ _ hs => hs.toAlongside
  · rw [entryTurn_entry (by simp [hk]) (by simp [hk]) (by simp [hk])]
    exact (listValue_fails hi.left hb hk hl).mirrors (hright b)
      fun _ _ hs => ⟨hs.1.recovering, hs.2⟩

theorem list_mirrors (hi : Mirrors Alongside FindsTwins inner inner')
    (hb : Fails AwaitsBracket (expr inner)) (name : String) (i j : Nat) :
    Mirrors Alongside (ReadsTwins Node.Twins) (list inner name i) (list inner' name j) := by
  have hloop := Mirrors.loop (listEntry_mirrors hi hb) [] []
  refine (hloop.weaken fun _ _ h => ⟨⟨rfl, trivial⟩, h⟩).value_bind
    (fun xs ys => .pure fun _ _ h => .inl ⟨twins_list h.1 name false i j, h.2⟩)
    fun xs ys => .pure fun _ _ => .inr

/-! ## Operations -/

/-- Reads a literal as a term where no collection stands. -/
def literalTerm (inner : Parser (Option Node)) : Parser Node := do
  rewind false
  let token ← next true .operation
  if token.isLiteral then primitiveValue token
  else
    error "Expected value"
    rewind false
    if ← skipTo inner .unexpected (entryEnd .rightParen) then rewind false
    substitute

theorem term_eq (inner operationInner : Parser (Option Node)) :
    term inner operationInner = discard >>= fun _ => operationInner >>= fun found =>
      match found with
      | some value => pure value
      | none => literalTerm inner := rfl

theorem noTerm_fails (hi : Moves Extends inner) : Fails (fun s => s.recovering = false)
    (error "Expected value" >>= fun _ => rewind false >>= fun _ =>
      skipTo inner .unexpected (entryEnd .rightParen) >>= fun found =>
        if found then rewind false >>= fun _ => substitute else substitute) :=
  (error_fails _).bind fun _ => (rewind_extends _).bind fun _ => (skipTo_extends hi _ _).bind
    fun _ => .ite ((rewind_extends _).bind fun _ => substitute_extends) substitute_extends

theorem literalTerm_mirrors (hi : Moves Extends inner) (hi' : Moves Extends inner') :
    Mirrors Alongside (ReadsTwins Node.Twins) (literalTerm inner) (literalTerm inner') := by
  refine (rewind_mirrors false).bind fun _ _ => ?_
  refine literal_mirrors (by decide) (fun a b hl => ?_) (fun a b => ?_) (noTerm_fails hi)
    (noTerm_fails hi').moves
  · exact (primitiveValue_mirrors hl).mono (fun _ _ => id) fun _ _ _ _ => .inl
  · exact (primitiveValue_spent a b).mono (fun _ _ => id) fun _ _ _ _ => .inr

theorem term_mirrors (hi : Moves Extends inner) (hi' : Moves Extends inner')
    (ho : Mirrors Alongside FindsTwins operationInner operationInner') :
    Mirrors Alongside (ReadsTwins Node.Twins) (term inner operationInner)
      (term inner' operationInner') := by
  have hliteral := literalTerm_mirrors hi hi'
  rw [term_eq, term_eq]
  refine (discard_mirrors.mono (fun _ _ => id) fun _ _ _ _ => And.left).bind fun _ _ => ?_
  refine ho.option_bind hliteral (fun m n => .pure fun _ _ => .inl) fun m found => ?_
  refine .of_left ?_ fun _ _ _ => .inr
  cases found with
  | none => exact hliteral.right
  | some n => exact Moves.pure _

variable {operand operand' : Parser Node}

theorem operationSeparator_eq (xs : List Node) :
    operationSeparator xs = discard >>= fun _ => next false .operation >>=
      separatorTurn "Unterminated operation" .rightParen xs
        (discard >>= fun _ => next true .operation >>= fun token =>
          if token.kind != .comma then rewind false >>= fun _ => pure (.again xs)
          else pure (.again xs))
        (error "Each term should be separated with either line breaks or ','" >>= fun _ =>
          rewind false >>= fun _ => pure (.again xs)) := by
  refine congrArg (discard >>= ·) (funext fun _ => ?_)
  refine congrArg (next false .operation >>= ·) (funext fun a => ?_)
  unfold separatorTurn
  cases a.kind <;> rfl

theorem operationSeparator_fails (xs : List Node) :
    Fails (fun s => s.recovering = false)
      (error "Each term should be separated with either line breaks or ','" >>= fun _ =>
        rewind false >>= fun _ => pure (Turn.again xs)) :=
  (error_fails _).bind fun _ => (rewind_extends _).bind fun _ => Moves.pure _

theorem operationSeparator_mirrors (h : ItemsTwins xs ys) :
    Mirrors Alongside (TurnsTwins ItemsTwins) (operationSeparator xs) (operationSeparator ys) := by
  rw [operationSeparator_eq, operationSeparator_eq]
  refine discard_mirrors.bind fun _ _ => ?_
  refine (separator_mirrors (by decide) rfl (passComma_extends _ (fun _ => false) _)
    (passComma_extends _ (fun _ => false) _) (operationSeparator_fails xs)
    (operationSeparator_fails ys)).weaken fun _ _ hs => ⟨h, hs.1⟩

theorem operationSeparator_spent (xs : List Node) : Fails Spent (operationSeparator xs) := by
  rw [operationSeparator_eq]
  exact .after discard_extends (fun _ hs => Yields.of_modify hs.discard) fun _ =>
    separator_spent rfl (passComma_extends _ (fun _ => false) _) (operationSeparator_fails xs)

/-- Reads a term behind a look at its first token, and what separates it from the next. -/
def operationTerm (operand : Parser Node) (items : List Node) (_ : Token) :
    Parser (Turn (List Node)) := do
  rewind false
  operationSeparator (items ++ [← operand])

theorem operationEntry_eq (operand : Parser Node) (xs : List Node) :
    operationEntry operand xs = discard >>= fun _ => next true .operation >>=
      entryTurn "Unterminated operation" .rightParen xs (operationTerm operand xs) := by
  refine congrArg (discard >>= ·) (funext fun _ => ?_)
  refine congrArg (next true .operation >>= ·) (funext fun a => ?_)
  unfold entryTurn
  cases a.kind <;> rfl

theorem operationTerm_mirrors
    (ho : Mirrors Alongside (ReadsTwins Node.Twins) operand operand') (h : ItemsTwins xs ys)
    (a b : Token) :
    Mirrors Alongside (TurnsTwins ItemsTwins) (operationTerm operand xs a)
      (operationTerm operand' ys b) := by
  refine (rewind_mirrors false).bind fun _ _ => ho.value_bind (fun m n => ?_) fun m n => ?_
  · exact .intro (operationSeparator_spent _).moves (operationSeparator_spent _).moves
      fun hn => operationSeparator_mirrors (h.concat hn)
  · exact (operationSeparator_spent _).mirrors (operationSeparator_spent _).moves fun _ _ => id

theorem operationTerm_extends (ho : Moves Extends operand) (xs : List Node) (a : Token) :
    Moves Extends (operationTerm operand xs a) :=
  (rewind_extends _).bind fun _ => ho.bind fun _ => (operationSeparator_spent _).moves

theorem operationEntry_mirrors
    (ho : Mirrors Alongside (ReadsTwins Node.Twins) operand operand') (xs ys : List Node) :
    Mirrors (fun s u => ItemsTwins xs ys ∧ Alongside s u) (TurnsTwins ItemsTwins)
      (operationEntry operand xs) (operationEntry operand' ys) := by
  have hleft (a : Token) : Moves Extends
      (entryTurn "Unterminated operation" .rightParen xs (operationTerm operand xs) a) :=
    entryTurn_extends (operationTerm_extends ho.left xs) a
  have hright (b : Token) : Moves Extends
      (entryTurn "Unterminated operation" .rightParen ys (operationTerm operand' ys) b) :=
    entryTurn_extends (operationTerm_extends ho.right ys) b
  rw [operationEntry_eq, operationEntry_eq]
  refine .intro (discard_extends.bind fun _ => (next_extends _ _).bind hleft)
    (discard_extends.bind fun _ => (next_extends _ _).bind hright) fun h => ?_
  refine .discard_next (by decide) (fun a b hk _ => ?_) (fun a b hk _ _ hw => ?_)
    fun a b hk hk' _ _ => ?_
  · exact entryTurn_mirrors rfl h hk (operationTerm_mirrors ho h a b)
  · rw [entryTurn_word rfl hw, entryTurn_word rfl (by rwa [hk])]
    exact (operationTerm_mirrors ho h a b).weaken fun _ _ hs => hs.toAlongside
  · rw [entryTurn_entry (by simp [hk]) (by simp [hk]) (by simp [hk]),
      entryTurn_entry (by simp [hk']) (by simp [hk']) (by simp [hk'])]
    exact (operationTerm_mirrors ho h a b).weaken fun _ _ hs => hs.1.toAlongside

theorem operationItems_mirrors (hi : Moves Extends inner) (hi' : Moves Extends inner')
    (ho : Mirrors Alongside FindsTwins operationInner operationInner') :
    Mirrors Alongside (ReadsTwins ItemsTwins) (operationItems inner operationInner)
      (operationItems inner' operationInner') := by
  have hmoves {inner operationInner : Parser (Option Node)} (hi : Moves Extends inner)
      (ho : Moves Extends operationInner) : Moves Extends (operationItems inner operationInner) :=
    (extends_rules.operationItems (hi.reaches Rules.found_true)
      (ho.reaches Rules.found_true)).moves
  refine ⟨hmoves hi ho.left, hmoves hi' ho.right, fun s u h => ?_⟩
  have hloop := Mirrors.loop (operationEntry_mirrors (term_mirrors hi hi' ho)) [] []
  have hlevels {t : ParserState} (hq : Quiet [] t) : t.visible.operators.levels = [] := by
    rw [hq.visible]
    exact levels_empty
  refine Yields.get_bind ?_
  rw [hlevels h.quiet]
  refine (hloop.follows s u ⟨⟨rfl, trivial⟩, h⟩).mono fun xs t ht => Yields.get_bind ?_
  rw [hlevels h.quiet']
  exact ht

theorem operation_mirrors (hi : Moves Extends inner) (hi' : Moves Extends inner')
    (ho : Mirrors Alongside FindsTwins operationInner operationInner') (name : String)
    (i j : Nat) :
    Mirrors Alongside (ReadsTwins Node.Twins) (operation inner operationInner name i)
      (operation inner' operationInner' name j) :=
  (operationItems_mirrors hi hi' ho).value_bind
    (fun _ _ => .pure fun _ _ h => .inl ⟨twins_list h.1 name true i j, h.2⟩)
    fun _ _ => .pure fun _ _ => .inr

/-! ## Collections -/

theorem twins_ungroup (h : m.Twins n) : (ungroup m).Twins (ungroup n) := by
  obtain ⟨heq, hkeyed⟩ := h
  unfold ungroup
  split
  · rename_i x i
    cases n with
    | primitive text j => simp [withoutInfo] at heq
    | object name props j => simp [withoutInfo] at heq
    | list name op items j =>
      simp only [withoutInfo, list.injEq, and_true, withoutInfoItems_eq, List.map_cons,
        List.map_nil, List.map_eq_singleton_iff] at heq
      obtain ⟨rfl, rfl, y, rfl, hy⟩ := heq
      exact ⟨hy, hkeyed.1⟩
  · rename_i hm
    split
    · rename_i y j
      cases m with
      | primitive text i => simp [withoutInfo] at heq
      | object name props i => simp [withoutInfo] at heq
      | list name op items i =>
        simp only [withoutInfo, list.injEq, and_true, withoutInfoItems_eq, List.map_cons,
          List.map_nil] at heq
        obtain ⟨rfl, rfl, hitems⟩ := heq
        obtain ⟨x, rfl, -⟩ := List.map_eq_singleton_iff.mp hitems.symm
        exact absurd rfl (hm x i)
    · exact ⟨heq, hkeyed⟩

theorem namedValue_mirrors (a b : Token) (kind : MacroKind) (m n : Node) :
    Mirrors (fun s u => m.Twins n ∧ Alongside s u) FindsTwins (namedValue a kind m)
      (namedValue b kind n) := by
  refine .step (namedValue_extends a kind m) (namedValue_extends b kind n) fun s u h => ?_
  refine (namedValue_quiet h.2.quiet a kind m).mono fun v t ht => ?_
  refine (namedValue_quiet h.2.quiet' b kind n).mono fun w t' ht' => ?_
  obtain ⟨rfl, rfl⟩ := ht
  obtain ⟨rfl, rfl⟩ := ht'
  exact .value (.some h.1 h.2)

theorem namedValue_spent (a b : Token) (kind : MacroKind) (m n : Node) :
    Mirrors (fun s _ => Spent s) FindsTwins (namedValue a kind m) (namedValue b kind n) := by
  refine (Mirrors.still_spent (namedValue_extends a kind m) (namedValue_extends b kind n)
    fun s => namedValue_still a kind m).mono (fun _ _ => id) fun v w t t' ht => ?_
  cases v with
  | none => exact absurd ht.1 Bool.false_ne_true
  | some x => exact .value (.spent ht.2)

theorem named_mirrors {p q : Parser Node} (h : Mirrors Alongside (ReadsTwins Node.Twins) p q)
    (a b : Token) (kind : MacroKind) :
    Mirrors Alongside FindsTwins (p >>= namedValue a kind) (q >>= namedValue b kind) :=
  h.value_bind (namedValue_mirrors a b kind) (namedValue_spent a b kind)

theorem found_mirrors {p q : Parser Node} (h : Mirrors Alongside (ReadsTwins Node.Twins) p q)
    {f : Node → Node} (hf : ∀ m n : Node, m.Twins n → (f m).Twins (f n)) :
    Mirrors Alongside FindsTwins (p >>= fun m => pure (some (f m)))
      (q >>= fun n => pure (some (f n))) :=
  h.value_bind (fun m n => .pure fun _ _ hs => .value (.some (hf m n hs.1) hs.2))
    fun _ _ => .pure fun _ _ hs => .value (.spent hs)

/-- Reads the collection that a literal names, if one follows. -/
def behindName (depth : Nat) (inOperation : Bool) (token : Token) : Parser (Option Node) := do
  match (← next inOperation .unexpected).kind with
  | .leftBrace =>
    object (collection depth false) token.text token.start >>= namedValue token .object
  | .leftBracket => list (collection depth false) token.text token.start >>= namedValue token .list
  | .leftParen =>
    operation (collection depth false) (collection depth true) token.text token.start >>=
      namedValue token .operation
  | _ =>
    rewind true
    return none

/-- Reads a collection behind its first token, if one starts with it. -/
def collectionFrom (depth : Nat) (inOperation : Bool) (token : Token) : Parser (Option Node) :=
  match token.kind with
  | .leftBrace => object (collection depth false) "" token.start >>= fun m => pure (some m)
  | .leftBracket => list (collection depth false) "" token.start >>= fun m => pure (some m)
  | .leftParen =>
    operation (collection depth false) (collection depth true) "" token.start >>= fun m =>
      pure (some (ungroup m))
  | _ =>
    if token.isLiteral then behindName depth inOperation token
    else rewind false >>= fun _ => pure none

theorem collection_succ (depth : Nat) (inOperation : Bool) :
    collection (depth + 1) inOperation = discard >>= fun _ =>
      next true (termMode inOperation) >>= collectionFrom depth inOperation := rfl

theorem collectionFrom_back {depth : Nat} {inOperation : Bool} {a : Token}
    (ho : isOpening a.kind = false) (hl : a.isLiteral = false) :
    collectionFrom depth inOperation a = rewind false >>= fun _ => pure none := by
  obtain ⟨kind, start, literal⟩ := a
  unfold collectionFrom
  cases kind with
  | leftBrace => exact Bool.noConfusion ho
  | leftBracket => exact Bool.noConfusion ho
  | leftParen => exact Bool.noConfusion ho
  | _ => exact if_neg (by simp [hl])

theorem collectionFrom_word {depth : Nat} {inOperation : Bool} {a : Token}
    (hw : a.kind.isSign = false) (hl : a.isLiteral = true) :
    collectionFrom depth inOperation a = behindName depth inOperation a := by
  obtain ⟨kind, start, literal⟩ := a
  unfold collectionFrom
  cases kind with
  | leftBrace => exact Bool.noConfusion hw
  | leftBracket => exact Bool.noConfusion hw
  | leftParen => exact Bool.noConfusion hw
  | _ => exact if_pos hl

theorem collection_bracket {s : ParserState} (hs : AwaitsBracket s) (depth : Nat) :
    Yields (collection (depth + 1) false) s fun v t => v = none
      ∧ ∃ place, t.tokenizer.committed = place
        ∧ (Scan.skipBlank place.pos place.rest).1.rest = ['}'] := by
  obtain ⟨-, e, es, hahead, hkind, hliteral, hlast⟩ := hs
  have hadvance : s.tokenizer.discard.advance .value s.visible.operators
      = (e.1, { s.tokenizer.discard with taken := [e], ahead := es }) := by
    simp [Tokenizer.advance, Tokenizer.discard, hahead]
  rw [collection_succ]
  refine Yields.modify_bind (Yields.bind (next_handed _ _ _) fun a t ht => ?_)
  simp only [termMode, Bool.false_eq_true, if_false] at ht
  rw [Tokenizer.next_eq_advance (fun _ => by rw [hadvance, hkind]; decide), hadvance] at ht
  obtain ⟨rfl, ht⟩ := ht
  rw [collectionFrom_back (by rw [hkind]; rfl) (not_isLiteral hliteral)]
  refine Yields.modify_bind (Yields.of_pure ⟨rfl, e.2, ?_, hlast⟩)
  simp [ht, Tokenizer.takeReports, Tokenizer.replay, Tokenizer.committed]

theorem collection_zero_fails (inOperation : Bool) :
    Fails (fun _ => True) (collection 0 inOperation) :=
  exhaust_fails.bind fun _ => Moves.pure none

theorem expr_bracket (depth : Nat) : Fails AwaitsBracket (expr (collection depth false)) := by
  have hcollection (depth : Nat) : Moves Extends (collection depth false) :=
    (extends_rules.collection depth false).moves
  rw [expr_eq]
  cases depth with
  | zero =>
    exact .after (B := fun _ _ => True) discard_extends (fun _ _ => Yields.of_modify trivial)
      fun _ => (collection_zero_fails false).bind orLiteral_extends
  | succ depth =>
    refine ⟨discard_extends.bind fun _ => (hcollection _).bind orLiteral_extends, fun s hs => ?_⟩
    have hdiscard : AwaitsBracket { s with tokenizer := s.tokenizer.discard } := ⟨hs.1, hs.2⟩
    refine Yields.modify_bind (Yields.bind ((hcollection _ _).and
      (collection_bracket hdiscard depth)) fun v t ht => ?_)
    obtain ⟨hext, rfl, place, rfl, hlast⟩ := ht
    refine Yields.modify_bind (Yields.bind ((next_extends _ _ _).and (next_handed _ _ _))
      fun a u hu => ?_)
    obtain ⟨start, htoken⟩ := Tokenizer.next_bracket (t := t.tokenizer.reread) rfl hlast true
      .value t.visible.operators
    have ha : a.isLiteral = false := by
      rw [hu.2.1]
      exact congrArg Token.isLiteral htoken
    rw [if_neg (by simp [ha])]
    exact noValue_fails.loud u (hu.1.recovering.trans (hext.recovering.trans hs.recovering))

theorem rewind_none_mirrors (again : Bool) :
    Mirrors Alongside FindsTwins (rewind again >>= fun _ => pure none)
      (rewind again >>= fun _ => pure none) :=
  (rewind_mirrors again).bind fun _ _ => .pure fun _ _ => .none

section

variable {depth depth' : Nat} (h : ∀ inOperation,
  Mirrors Alongside FindsTwins (collection depth inOperation) (collection depth' inOperation))
include h

theorem named_object_mirrors {a b : Token} (hl : b.literal = a.literal) :
    Mirrors Alongside FindsTwins
      (object (collection depth false) a.text a.start >>= namedValue a .object)
      (object (collection depth' false) b.text b.start >>= namedValue b .object) := by
  rw [Token.text, Token.text, hl]
  exact named_mirrors (object_mirrors (h false) _ _ _) a b .object

theorem named_list_mirrors {a b : Token} (hl : b.literal = a.literal) :
    Mirrors Alongside FindsTwins
      (list (collection depth false) a.text a.start >>= namedValue a .list)
      (list (collection depth' false) b.text b.start >>= namedValue b .list) := by
  rw [Token.text, Token.text, hl]
  exact named_mirrors (list_mirrors (h false) (expr_bracket depth) _ _ _) a b .list

theorem named_operation_mirrors {a b : Token} (hl : b.literal = a.literal) :
    Mirrors Alongside FindsTwins
      (operation (collection depth false) (collection depth true) a.text a.start >>=
        namedValue a .operation)
      (operation (collection depth' false) (collection depth' true) b.text b.start >>=
        namedValue b .operation) := by
  rw [Token.text, Token.text, hl]
  exact named_mirrors (operation_mirrors (h false).left (h false).right (h true) _ _ _) a b
    .operation

theorem behindName_mirrors (inOperation : Bool) (a b : Token) :
    Mirrors (fun s u => (b.literal = a.literal ∨ Spent s) ∧ Alongside s u) FindsTwins
      (behindName depth inOperation a) (behindName depth' inOperation b) := by
  refine .of_next (L := fun c => b.literal = a.literal ∨ c.kind = .endOfFile)
    (fun _ _ hs => hs.2) (fun s u hs => ?_) (fun c d hk _ => ?_) (fun c d hk _ _ hw => ?_)
    (fun c d hk hk' _ _ => ?_) fun hm => ?_
  · rcases hs.1 with hl | hs
    · exact Yields.by_run fun _ _ _ => .inl hl
    · exact (next_spent hs _ _).mono fun _ _ ht => .inr ht.1
  · obtain ⟨kind, i, literal⟩ := c
    obtain ⟨kind', j, literal'⟩ := d
    simp only at hk
    subst hk
    cases kind' with
    | leftBrace =>
      refine .intro (named_object_mirrors h rfl).left (named_object_mirrors h rfl).right
        fun hP => ?_
      exact (named_object_mirrors h (hP.2.resolve_right (by simp))).weaken fun _ _ => And.left
    | leftBracket =>
      refine .intro (named_list_mirrors h rfl).left (named_list_mirrors h rfl).right fun hP => ?_
      exact (named_list_mirrors h (hP.2.resolve_right (by simp))).weaken fun _ _ => And.left
    | leftParen =>
      refine .intro (named_operation_mirrors h rfl).left (named_operation_mirrors h rfl).right
        fun hP => ?_
      exact (named_operation_mirrors h (hP.2.resolve_right (by simp))).weaken fun _ _ => And.left
    | _ => exact (rewind_none_mirrors true).weaken fun _ _ hs => hs.2.1
  · obtain ⟨kind, i, literal⟩ := c
    obtain ⟨kind', j, literal'⟩ := d
    simp only at hk hw
    subst hk
    cases kind' with
    | leftBrace => exact absurd hw (by decide)
    | leftBracket => exact absurd hw (by decide)
    | leftParen => exact absurd hw (by decide)
    | _ => exact (rewind_none_mirrors true).weaken fun _ _ hs => hs.toAlongside
  · obtain ⟨kind, i, literal⟩ := c
    obtain ⟨kind', j, literal'⟩ := d
    simp only at hk hk'
    subst hk hk'
    exact (rewind_none_mirrors true).weaken fun _ _ hs => hs.1.toAlongside
  · exact absurd hm (by decide)

theorem collectionFrom_mirrors (inOperation : Bool) (hk : b.kind = a.kind)
    (hl : b.literal = a.literal) :
    Mirrors Alongside FindsTwins (collectionFrom depth inOperation a)
      (collectionFrom depth' inOperation b) := by
  have hobject (i j : Nat) : Mirrors Alongside FindsTwins
      (object (collection depth false) "" i >>= fun m => pure (some m))
      (object (collection depth' false) "" j >>= fun m => pure (some m)) :=
    found_mirrors (object_mirrors (h false) _ _ _) fun _ _ => id
  have hlist (i j : Nat) : Mirrors Alongside FindsTwins
      (list (collection depth false) "" i >>= fun m => pure (some m))
      (list (collection depth' false) "" j >>= fun m => pure (some m)) :=
    found_mirrors (list_mirrors (h false) (expr_bracket depth) _ _ _) fun _ _ => id
  have hoperation (i j : Nat) : Mirrors Alongside FindsTwins
      (operation (collection depth false) (collection depth true) "" i >>= fun m =>
        pure (some (ungroup m)))
      (operation (collection depth' false) (collection depth' true) "" j >>= fun m =>
        pure (some (ungroup m))) :=
    found_mirrors (operation_mirrors (h false).left (h false).right (h true) _ _ _)
      fun _ _ => twins_ungroup
  have hother (a b : Token) (hl : b.literal = a.literal) : Mirrors Alongside FindsTwins
      (if a.isLiteral then behindName depth inOperation a else rewind false >>= fun _ => pure none)
      (if b.isLiteral then behindName depth' inOperation b
        else rewind false >>= fun _ => pure none) := by
    rw [isLiteral_eq hl]
    split
    · exact (behindName_mirrors h inOperation a b).weaken fun _ _ hs => ⟨.inl hl, hs⟩
    · exact rewind_none_mirrors false
  obtain ⟨kind, i, literal⟩ := a
  obtain ⟨kind', j, literal'⟩ := b
  simp only at hk hl
  subst hk hl
  cases kind' with
  | leftBrace => exact hobject i j
  | leftBracket => exact hlist i j
  | leftParen => exact hoperation i j
  | _ => exact hother _ _ rfl

theorem collection_succ_mirrors (inOperation : Bool) :
    Mirrors Alongside FindsTwins (collection (depth + 1) inOperation)
      (collection (depth' + 1) inOperation) := by
  have hmode : termMode inOperation ≠ .key := by cases inOperation <;> decide
  rw [collection_succ, collection_succ]
  refine .discard_next hmode (fun a b hk hl => collectionFrom_mirrors h inOperation hk hl)
    (fun a b hk ha hb hw => ?_) fun a b hk hk' hl hl' => ?_
  · rw [collectionFrom_word hw ha, collectionFrom_word (by rwa [hk]) hb]
    exact (behindName_mirrors h inOperation a b).weaken fun _ _ hs =>
      ⟨.inr hs.spent, hs.toAlongside⟩
  · rw [collectionFrom_back (by rw [hk]; rfl) (not_isLiteral hl),
      collectionFrom_back (by rw [hk']; rfl) (not_isLiteral hl')]
    exact (rewind_none_mirrors false).weaken fun _ _ hs => hs.1.toAlongside

end

/-- A collection in the object, read inside at most so many others, and the same one in the list. -/
theorem collection_mirrors (depth depth' : Nat) (inOperation : Bool) :
    Mirrors Alongside FindsTwins (collection depth inOperation)
      (collection depth' inOperation) := by
  have hmoves (depth : Nat) (inOperation : Bool) : Moves Extends (collection depth inOperation) :=
    (extends_rules.collection depth inOperation).moves
  induction depth generalizing depth' inOperation with
  | zero =>
    have hcut : Fails (fun _ => True) (collection 0 inOperation) :=
      exhaust_fails.bind fun _ => Moves.pure none
    exact hcut.mirrors (hmoves depth' inOperation) fun _ _ _ => trivial
  | succ depth ih =>
    cases depth' with
    | zero => exact .of_cut (hmoves _ _) (hmoves _ _) fun _ => rfl
    | succ depth' => exact collection_succ_mirrors (fun inOperation => ih depth' inOperation) _

end Parser

end ConfigScript
