import ConfigScript.Parser.Value
import ConfigScript.Proofs.Node.Keyed
import ConfigScript.Proofs.Parser.Starts

/-! # Entries read back

A loop over the entries of a collection reads them back one by one: after each stands a comma, and
the loop goes on, or the closing bracket, and it ends. What is nested is left to a reader of
collections. -/

namespace ConfigScript.Parser

open Scan Text Node

variable {α γ : Type} {root : List Node} {s : ParserState} {rest : List Char}
  {inner operationInner : Parser (Option Node)}

/-! ## Loops over entries -/

/-- A turn after which a character stands: there are further entries after a comma alone. -/
def turnAt (c : Char) (a : α) : Turn α := if c = ',' then .again a else .done a

theorem Yields.separator {mode : ReadMode} {f : Token → Parser (Turn α)} {a : α} {c closer : Char}
    {kind : TokenKind} (hcomma : sign? mode ',' = some .comma)
    (hcloser : sign? mode closer = some kind)
    (hne : closer ≠ ',') (hagain : ∀ start, f ⟨.comma, start, none⟩ = pure (.again a))
    (hdone : ∀ start, f ⟨kind, start, none⟩ = pure (.done a)) (hc : c = ',' ∨ c = closer)
    (hq : Quiet root s) (hr : s.tokenizer.Rests (c :: rest)) :
    Yields (next false mode >>= f) s fun r t =>
      r = turnAt c a ∧ Quiet root t ∧ t.tokenizer.Rests rest := by
  rcases hc with rfl | rfl
  · refine Yields.next_hand hq (hr.poised mode) (lexes_sign hcomma rest) (by simp)
      fun start t hqt ht => ?_
    rw [hagain, turnAt, if_pos rfl]
    exact ⟨rfl, hqt, ht.toRests⟩
  · refine Yields.next_hand hq (hr.poised mode) (lexes_sign hcloser rest) (by simp)
      fun start t hqt ht => ?_
    rw [hdone, turnAt, if_neg hne]
    exact ⟨rfl, hqt, ht.toRests⟩

/-- The entry is read after the ones that were read before, up to what stands between it and the
next one, or at the end. -/
def ReadsEntry (entry : List α → Parser (Turn (List α))) (value : α → γ) (closer : Char)
    (done : List α) (x : α) (text : List Char) : Prop :=
  ∀ root c rest s, c = ',' ∨ c = closer → Quiet root s → s.tokenizer.Rests (text ++ c :: rest) →
    Yields (entry done) s fun r t =>
      (∃ y, value y = value x ∧ r = turnAt c (done ++ [y])) ∧ Quiet root t
        ∧ t.tokenizer.Rests rest

/-- The closing bracket ends the entries. -/
def ReadsCloser (entry : List α → Parser (Turn (List α))) (closer : Char) : Prop :=
  ∀ root done rest s, Quiet root s → s.tokenizer.Rests (closer :: rest) →
    Yields (entry done) s fun r t => r = .done done ∧ Quiet root t ∧ t.tokenizer.Rests rest

/-- A loop reads entries back, if each is read back in whatever state the ones before it lead
to. -/
theorem turns_entries {entry : List α → Parser (Turn (List α))} {value : α → γ} {closer : Char}
    {chars : α → List Char} {Fits : List α → List α → Prop} (hc : closer ≠ ',')
    (hclose : ReadsCloser entry closer)
    (hentry : ∀ done x xs, Fits done (x :: xs) → ReadsEntry entry value closer done x (chars x))
    (hfits : ∀ done x xs y, Fits done (x :: xs) → value y = value x → Fits (done ++ [y]) xs)
    {xs done : List α} {n : Nat} (hf : Fits done xs) (hn : xs.length < n) (hq : Quiet root s)
    (hr : s.tokenizer.Rests (entryChars (xs.map chars) ++ closer :: rest)) :
    Yields (turns entry n done) s fun ys t =>
      ys.map value = (done ++ xs).map value ∧ Quiet root t ∧ t.tokenizer.Rests rest := by
  -- An entry is read with what separates it from the next one, so there is one turn for each.
  induction n generalizing xs done s with
  | zero => omega
  | succ n ih =>
    cases xs with
    | nil =>
      refine Yields.bind (hclose root done rest s hq hr) fun r t ht => ?_
      obtain ⟨rfl, hqt, hrt⟩ := ht
      rw [List.append_nil]
      exact ⟨rfl, hqt, hrt⟩
    | cons x xs =>
      cases xs with
      | nil =>
        rw [List.map_singleton, entryChars_singleton] at hr
        have he := hentry done x [] hf root closer rest s (.inr rfl) hq hr
        refine Yields.bind he fun r t ht => ?_
        obtain ⟨⟨y, hy, rfl⟩, hqt, hrt⟩ := ht
        rw [turnAt, if_neg hc]
        have hmap : (done ++ [y]).map value = (done ++ [x]).map value := by simp [hy]
        exact ⟨hmap, hqt, hrt⟩
      | cons z zs =>
        rw [List.map_cons, List.map_cons, entryChars_cons_cons, List.append_assoc,
          List.cons_append] at hr
        have he := hentry done x (z :: zs) hf root ',' _ s (.inl rfl) hq hr
        refine Yields.bind he fun r t ht => ?_
        obtain ⟨⟨y, hy, rfl⟩, hqt, hrt⟩ := ht
        rw [turnAt, if_pos rfl]
        have hlen : (z :: zs).length < n := by
          simp only [List.length_cons] at hn ⊢
          omega
        refine (ih (hfits done x (z :: zs) y hf hy) hlen hqt hrt).mono fun ys u hu => ?_
        refine ⟨?_, hu.2⟩
        simp [hu.1, hy]

/-! ## Values -/

/-- The mode in which the first token of a value is read. -/
def termMode (inOperation : Bool) : ReadMode := if inOperation then .operation else .value

/-- What reading a collection where a node is written comes to: the node, or nothing if it is a
primitive, with the text given back. -/
def Collected (n : Node) (text rest : List Char) (v : Option Node) (t : ParserState) : Prop :=
  match v with
  | some m => m.withoutInfo = n.withoutInfo ∧ t.tokenizer.Rests rest
  | none => n.isPrimitive = true ∧ t.tokenizer.Fresh text

/-- A reader of collections reads the node back. -/
def Collects (inner : Parser (Option Node)) (inOperation : Bool) (n : Node) : Prop :=
  ∀ root rest s, Quiet root s → s.tokenizer.Poised (termMode inOperation) (n.chars ++ rest) →
    (n.isPrimitive = true → Follow inOperation rest) →
    Yields inner s fun v t => Collected n (n.chars ++ rest) rest v t ∧ Quiet root t

theorem withoutInfo_placedAt (n : Node) (p : Nat) : (n.placedAt p).withoutInfo = n.withoutInfo := by
  cases n <;> rfl

theorem exists_primitive {n : Node} (h : n.isPrimitive = true) :
    ∃ text i, n = .primitive text i := by
  cases n with
  | primitive text i => exact ⟨text, i, rfl⟩
  | object name props i => exact absurd h Bool.false_ne_true
  | list name op items i => exact absurd h Bool.false_ne_true

theorem primitiveValue_back (hq : Quiet root s) (text : String) (i : NodeInfo) (kind : TokenKind)
    (start : Nat) :
    Yields (primitiveValue ⟨kind, start, some text⟩) s fun m t =>
      m.withoutInfo = (Node.primitive text i).withoutInfo ∧ t = s := by
  refine (primitiveValue_quiet hq _).mono fun m t ht => ?_
  obtain ⟨rfl, rfl⟩ := ht
  exact ⟨withoutInfo_placedAt _ start, rfl⟩

theorem lexes_primitive {mode : ReadMode} (he : (rulesOf mode).stopAtEquals = false)
    (hb : (rulesOf mode).stopAtBracket = true) (word : String) (i : NodeInfo)
    (hd : Delimited rest) :
    ∃ kind : TokenKind, kind.holdsText = true
      ∧ Lexes mode ((Node.primitive word i).chars ++ rest) kind (some word) rest := by
  rw [chars_primitive]
  exact lexes_written mode he (written_writeValue word) (ends_of_delimited hb hd)

theorem Yields.next_primitive {β : Type} {mode : ReadMode} {f : Token → Parser β}
    {Q : β → ParserState → Prop} {text : String} {i : NodeInfo}
    (he : (rulesOf mode).stopAtEquals = false) (hb : (rulesOf mode).stopAtBracket = true)
    (hq : Quiet root s) (hr : s.tokenizer.Rests ((Node.primitive text i).chars ++ rest))
    (hd : Delimited rest)
    (hf : ∀ kind start t, Quiet root t → t.tokenizer.Rests rest →
      Yields (f ⟨kind, start, some text⟩) t Q) :
    Yields (next true mode >>= f) s Q := by
  obtain ⟨kind, hk, hl⟩ := lexes_primitive he hb text i hd
  have hne : kind ≠ .lineBreak := TokenKind.ne_of_holdsText hk rfl
  exact Yields.next_hand hq (hr.poised mode) hl (fun _ => hne)
    fun start t hqt ht => hf kind start t hqt ht.toRests

theorem expr_collected {n : Node} {text : List Char}
    (hi : Yields inner { s with tokenizer := s.tokenizer.discard } fun v t =>
      Collected n text rest v t ∧ Quiet root t)
    (hl : ∀ word i, n = .primitive word i →
      ∃ kind : TokenKind, kind.holdsText = true ∧ Lexes .value text kind (some word) rest) :
    Yields (expr inner) s fun v t =>
      (∃ m, v = some m ∧ m.withoutInfo = n.withoutInfo) ∧ Quiet root t
        ∧ t.tokenizer.Rests rest := by
  refine Yields.modify_bind (Yields.bind hi fun v t ht => ?_)
  obtain ⟨hv, hqt⟩ := ht
  cases v with
  | some m => exact ⟨⟨m, rfl, hv.1⟩, hqt, hv.2⟩
  | none =>
    obtain ⟨hprim, hfresh⟩ := hv
    obtain ⟨word, i, rfl⟩ := exists_primitive hprim
    obtain ⟨kind, hk, hlex⟩ := hl word i rfl
    refine Yields.reread_bind hqt hfresh.since fun u hqu hu => ?_
    refine Yields.next_hand hqu (hu.toRests.poised .value) hlex
      (fun _ => TokenKind.ne_of_holdsText hk rfl) fun start w hqw hw => ?_
    refine Yields.of_ite (fun _ => ?_) fun h => absurd rfl h
    refine Yields.bind (primitiveValue_back hqw word i kind start) fun m x hx => ?_
    obtain ⟨hm, rfl⟩ := hx
    exact ⟨⟨m, rfl, hm⟩, hqw, hw.toRests⟩

theorem expr_back {n : Node} (hi : Collects inner false n) (hq : Quiet root s)
    (hp : s.tokenizer.Poised .value (n.chars ++ rest)) (hf : Follow false rest) :
    Yields (expr inner) s fun v t =>
      (∃ m, v = some m ∧ m.withoutInfo = n.withoutInfo) ∧ Quiet root t
        ∧ t.tokenizer.Rests rest := by
  refine expr_collected (hi root rest _ hq.discard hp.discard fun _ => hf) ?_
  rintro word i rfl
  exact lexes_primitive rfl rfl word i hf.delimited

theorem exprOrError_back {n : Node} (hi : Collects inner false n) (hq : Quiet root s)
    (hp : s.tokenizer.Poised .value (n.chars ++ rest)) (hf : Follow false rest) :
    Yields (exprOrError inner) s fun m t =>
      m.withoutInfo = n.withoutInfo ∧ Quiet root t ∧ t.tokenizer.Rests rest := by
  refine Yields.bind (expr_back hi hq hp hf) fun v t ht => ?_
  obtain ⟨⟨m, rfl, hm⟩, ht⟩ := ht
  exact ⟨hm, ht⟩

/-! ## Objects -/

theorem objectSeparator_back (props : List (String × Node)) {c : Char} (hc : c = ',' ∨ c = '}')
    (hq : Quiet root s) (hr : s.tokenizer.Rests (c :: rest)) :
    Yields (objectSeparator inner props) s fun r t =>
      r = turnAt c props ∧ Quiet root t ∧ t.tokenizer.Rests rest :=
  Yields.separator rfl rfl (by decide) (fun _ => rfl) (fun _ => rfl) hc hq hr

/-- The value of a property. -/
def propertyValue (p : String × Node) : String × Node := (p.1, p.2.withoutInfo)

theorem follow_of_closer {c closer : Char} (hcl : closer ∈ ['}', ',', ')', ']'])
    (hc : c = ',' ∨ c = closer) (inOperation : Bool) (rest : List Char) :
    Follow inOperation (c :: rest) := by
  rcases hc with rfl | rfl
  · exact follow_cons (by decide) rest
  · exact follow_cons hcl rest

theorem objectProperty_back {done : List (String × Node)} {key : String} {n : Node}
    (hi : Collects inner false n) (hkey : key ∉ Properties.keys done) {c : Char}
    (hc : c = ',' ∨ c = '}') (kind : TokenKind) (start : Nat) (hq : Quiet root s)
    (hr : s.tokenizer.Rests (':' :: (n.chars ++ c :: rest))) :
    Yields (objectProperty inner ⟨kind, start, some key⟩ done) s fun r t =>
      (∃ y, propertyValue y = propertyValue (key, n) ∧ r = turnAt c (done ++ [y])) ∧ Quiet root t
        ∧ t.tokenizer.Rests rest := by
  refine Yields.discard_hold hq (hr.poised .unexpected) (lexes_sign rfl _) (by simp)
    fun start' t hqt ht => ?_
  refine Yields.of_ite (fun h => absurd h (by simp)) fun _ => ?_
  extract_lets duplicate goOn
  have hdup : duplicate = false := Properties.contains_eq_false hkey
  refine Yields.of_ite (fun h => absurd h (by simp [hdup])) fun _ => ?_
  have hf : Follow false (c :: rest) := follow_of_closer (by decide) hc false rest
  refine Yields.bind (exprOrError_back hi hqt (ht.toRests.poised .value) hf) fun m u hu => ?_
  obtain ⟨hm, hqu, hru⟩ := hu
  have hput : (if duplicate = true then done else Properties.put key m done)
      = done ++ [(key, m)] := by
    rw [hdup, if_neg (by decide), Properties.put_append hkey]
  have hkept : noteLost (if duplicate = true then m.marks else []) = pure () := by
    rw [hdup, if_neg (by decide), noteLost_nil]
  rw [hkept, pure_bind]
  refine (objectSeparator_back _ hc hqu hru).mono fun r v hv => ?_
  refine ⟨⟨(key, m), ?_, hv.1.trans ?_⟩, hv.2⟩
  · simp [propertyValue, hm]
  · exact congrArg (turnAt c) hput

theorem objectEntry_back {done : List (String × Node)} {p : String × Node}
    (hi : Collects inner false p.2) (hkey : p.1 ∉ Properties.keys done) :
    ReadsEntry (objectEntry inner) propertyValue '}' done p (propertyChars p) := by
  intro root c rest s hc hq hr
  rw [propertyChars, List.append_assoc, List.cons_append] at hr
  have hend : Ends (rulesOf .key) (':' :: (p.2.chars ++ c :: rest)) := by
    intro d hd
    simp only [List.head?_cons, Option.mem_def, Option.some.injEq] at hd
    subst hd
    rfl
  obtain ⟨kind, hk, hl⟩ := lexes_written .key rfl (written_writeName p.1) hend
  have hb : kind ≠ .lineBreak := TokenKind.ne_of_holdsText hk rfl
  refine Yields.next_hand hq (hr.poised .key) hl (fun _ => hb) fun start t hqt ht => ?_
  split
  · exact absurd ‹_› (TokenKind.ne_of_holdsText hk rfl)
  · exact absurd ‹_› (TokenKind.ne_of_holdsText hk rfl)
  · exact absurd ‹_› (TokenKind.ne_of_holdsText hk rfl)
  · refine Yields.of_ite (fun _ => ?_) fun h => absurd rfl h
    exact objectProperty_back hi hkey hc kind start hqt ht.toRests

theorem objectEntry_closer : ReadsCloser (objectEntry inner) '}' := by
  intro root done rest s hq hr
  refine Yields.next_hand hq (hr.poised .key) (lexes_sign rfl rest) (by simp)
    fun start t hqt ht => ?_
  exact ⟨rfl, hqt, ht.toRests⟩

/-! ## Lists -/

theorem listSeparator_back (items : List Node) {c : Char} (hc : c = ',' ∨ c = ']')
    (hq : Quiet root s) (hr : s.tokenizer.Rests (c :: rest)) :
    Yields (listSeparator inner items) s fun r t =>
      r = turnAt c items ∧ Quiet root t ∧ t.tokenizer.Rests rest :=
  Yields.separator rfl rfl (by decide) (fun _ => rfl) (fun _ => rfl) hc hq hr

theorem element_kind_ne {kind : TokenKind} (hk : kind = .unexpected ∨ isOpening kind = true) :
    kind ≠ .endOfFile ∧ kind ≠ .rightBracket ∧ kind ≠ .comma := by
  rcases hk with rfl | hk
  · decide
  · refine ⟨?_, ?_, ?_⟩ <;> (rintro rfl; exact absurd hk (by decide))

theorem listEntry_back {done : List Node} {n : Node} (hi : Collects inner false n) :
    ReadsEntry (listEntry inner) withoutInfo ']' done n n.chars := by
  intro root c rest s hc hq hr
  have hf : Follow false (c :: rest) := follow_of_closer (by decide) hc false rest
  refine Yields.look .value hq (hr.poised .unexpected) (starts_chars n hf.delimited)
    (by decide) fun kind start t hk hback => ?_
  have hne := element_kind_ne hk
  split
  · exact absurd ‹_› hne.1
  · exact absurd ‹_› hne.2.1
  · exact absurd ‹_› hne.2.2
  · refine Yields.bind hback fun _ u hu => ?_
    refine Yields.bind (expr_back hi hu.1 hu.2 hf) fun v w hw => ?_
    obtain ⟨⟨m, rfl, hm⟩, hqw, hrw⟩ := hw
    refine (listSeparator_back (done ++ [m]) hc hqw hrw).mono fun r x hx => ?_
    exact ⟨⟨m, hm, hx.1⟩, hx.2⟩

theorem listEntry_closer : ReadsCloser (listEntry inner) ']' := by
  intro root done rest s hq hr
  refine Yields.discard_hold hq (hr.poised .unexpected) (lexes_sign rfl rest) (by simp)
    fun start t hqt ht => ?_
  exact ⟨rfl, hqt, ht.toRests⟩

/-! ## Operations -/

theorem term_back {n : Node} (hi : Collects operationInner true n) (hq : Quiet root s)
    (hp : s.tokenizer.Poised .operation (n.chars ++ rest))
    (hf : n.isPrimitive = true → Follow true rest) :
    Yields (term inner operationInner) s fun m t =>
      m.withoutInfo = n.withoutInfo ∧ Quiet root t ∧ t.tokenizer.Rests rest := by
  refine Yields.modify_bind (Yields.bind (hi root rest _ hq.discard hp.discard hf) fun v t ht => ?_)
  obtain ⟨hv, hqt⟩ := ht
  cases v with
  | some m => exact ⟨hv.1, hqt, hv.2⟩
  | none =>
    obtain ⟨hprim, hfresh⟩ := hv
    obtain ⟨text, i, rfl⟩ := exists_primitive hprim
    have hu := hfresh.replay
    refine Yields.modify_bind (Yields.next_primitive rfl rfl (hqt.setTokenizer hqt.queued)
      hu.toRests (hf rfl).delimited fun kind start w hqw hw => ?_)
    refine Yields.of_ite (fun _ => ?_) fun h => absurd rfl h
    refine (primitiveValue_back hqw text i kind start).mono fun m x hx => ?_
    obtain ⟨hm, rfl⟩ := hx
    exact ⟨hm, hqw, hw⟩

theorem operationEntry_back {done : List Node} {n : Node} (hi : Collects operationInner true n) :
    ReadsEntry (operationEntry (term inner operationInner)) withoutInfo ')' done n n.chars := by
  intro root c rest s hc hq hr
  have hf : Follow true (c :: rest) := follow_of_closer (by decide) hc true rest
  obtain ⟨kind, literal, after, hl, hstart⟩ :=
    (starts_chars n hf.delimited).lexes .operation rfl rfl
  refine Yields.discard_hold hq (hr.poised .operation) hl (fun _ => hstart.kind_ne rfl rfl)
    fun start t hqt ht => ?_
  split
  · exact absurd ‹_› (hstart.kind_ne rfl rfl)
  · exact absurd ‹_› (hstart.kind_ne rfl rfl)
  · exact absurd ‹_› (hstart.kind_ne rfl rfl)
  · refine Yields.replay_bind hqt ht hl fun u hqu hu => ?_
    refine Yields.bind (term_back hi hqu hu fun _ => hf) fun m v hv => ?_
    obtain ⟨hm, hqv, hrv⟩ := hv
    refine Yields.modify_bind ((Yields.separator rfl rfl (by decide) (fun _ => rfl) (fun _ => rfl)
      hc hqv.discard ⟨hrv.ahead, hrv.rest⟩).mono fun r w hw => ?_)
    exact ⟨⟨m, hm, hw.1⟩, hw.2⟩

theorem operationEntry_closer (operand : Parser Node) :
    ReadsCloser (operationEntry operand) ')' := by
  intro root done rest s hq hr
  refine Yields.discard_hold hq (hr.poised .operation) (lexes_sign rfl rest) (by simp)
    fun start t hqt ht => ?_
  exact ⟨rfl, hqt, ht.toRests⟩

end ConfigScript.Parser
