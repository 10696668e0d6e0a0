import ConfigScript.Proofs.Parser.Noted

/-! # Separators

Commas and line breaks separate the values of a list alike. In an operation the parser looks past a
line break behind a word: a bracket that opens in the next line makes the word the name of the
collection there. -/

namespace ConfigScript.Parser

open Scan Text Node

variable {root : List Node} {s : ParserState} {rest : List Char}

/-- What separates two values. -/
inductive Separator
  | comma
  | lineFeed
  | carriageReturn
  | returnAndFeed
  deriving DecidableEq, Repr

namespace Separator

def text : Separator → String
  | comma => ","
  | lineFeed => "\n"
  | carriageReturn => "\r"
  | returnAndFeed => "\r\n"

/-- The separator in a source, where all line breaks are line feeds. -/
def char : Separator → Char
  | comma => ','
  | _ => '\n'

theorem char_cases (p : Separator) : p.char = ',' ∧ p = comma ∨ p.char = '\n' ∧ p ≠ comma := by
  cases p <;> simp [char]

end Separator

/-- A value with what separates it from the one in front of it. -/
abbrev Separated := Separator × Node

/-- The text of values with their separators. The first value has none in front of it. -/
def separatedText : List Separated → String
  | [] => ""
  | [x] => x.2.text
  | x :: y :: ys => x.2.text ++ y.1.text ++ separatedText (y :: ys)

/-- The text of a named list or operation. -/
def collectionText (name : String) (op : Bool) (items : List Separated) : String :=
  writeName name ++ (if op then "(" else "[") ++ separatedText items ++ (if op then ")" else "]")

/-- A primitive with a line break and an unnamed collection behind it. -/
def joins (x y : Separated) : Bool :=
  x.2.isPrimitive && y.1 != .comma && !y.2.isPrimitive && Template.wordOf y.2 == ""

/-- The values as an operation takes them: a primitive names the unnamed collection in the next
line. -/
def regroup : List Separated → List Node
  | [] => []
  | [x] => [x.2]
  | x :: y :: ys =>
    if joins x y then y.2.setName (Template.wordOf x.2) :: regroup ys else x.2 :: regroup (y :: ys)

/-- The values of a list or an operation that are written with these separators. -/
def elements (op : Bool) (items : List Separated) : List Node :=
  if op then regroup items else items.map Prod.snd

/-- The values with commas for all separators. -/
def withCommas (items : List Separated) : List Separated := items.map fun x => (.comma, x.2)

/-- Where no primitive has a line break and an unnamed collection behind it, an operation takes the
values as they are. -/
theorem regroup_of_apart {items : List Separated}
    (h : items.IsChain fun x y => joins x y = false) : regroup items = items.map Prod.snd := by
  induction items with
  | nil => rfl
  | cons x xs ih =>
    cases xs with
    | nil => rfl
    | cons y ys =>
      rw [List.isChain_cons_cons] at h
      rw [regroup, h.1, ih h.2]
      rfl

theorem isChain_withCommas (items : List Separated) :
    (withCommas items).IsChain fun x y => joins x y = false := by
  induction items with
  | nil => exact .nil
  | cons x xs ih =>
    cases xs with
    | nil => exact .singleton _
    | cons y ys => exact .cons_cons (by simp [joins]) ih

theorem elements_withCommas (op : Bool) (items : List Separated) :
    elements op (withCommas items) = items.map Prod.snd := by
  have hvalues : (withCommas items).map Prod.snd = items.map Prod.snd := by
    simp [withCommas, Function.comp_def]
  cases op with
  | false => exact hvalues
  | true => exact (regroup_of_apart (isChain_withCommas items)).trans hvalues

theorem keyed_setName {n : Node} (h : n.Keyed) (name : String) : (n.setName name).Keyed := by
  cases n with
  | primitive word i => exact h
  | object name' props i => exact h
  | list name' op items i => exact h

theorem keyed_elements {items : List Separated} (h : ∀ x ∈ items, x.2.Keyed) (op : Bool) :
    ∀ n ∈ elements op items, n.Keyed := by
  have hregroup : ∀ n ∈ regroup items, n.Keyed := by
    fun_induction regroup items with
    | case1 => simp
    | case2 x => simpa using h
    | case3 x y ys hj ih =>
      intro n hn
      rcases List.mem_cons.mp hn with rfl | hn
      · exact keyed_setName (h y (by simp)) _
      · exact ih (fun z hz => h z (by simp [hz])) n hn
    | case4 x y ys hj ih =>
      intro n hn
      rcases List.mem_cons.mp hn with rfl | hn
      · exact h x (by simp)
      · exact ih (fun z hz => h z (List.mem_cons_of_mem x hz)) n hn
  cases op with
  | true => exact hregroup
  | false =>
    intro n hn
    obtain ⟨x, hx, rfl⟩ := List.mem_map.mp hn
    exact h x hx

/-! ## Characters -/

/-- The characters behind a value: the further values with their separators, and what closes the
collection. -/
def behind (closing : List Char) : List Separated → List Char
  | [] => closing
  | x :: xs => x.1.char :: (x.2.chars ++ behind closing xs)

def separatedChars (closing : List Char) : List Separated → List Char
  | [] => closing
  | x :: xs => x.2.chars ++ behind closing xs

theorem behind_cons (closing : List Char) (x : Separated) (xs : List Separated) :
    behind closing (x :: xs) = x.1.char :: separatedChars closing (x :: xs) := rfl

theorem chars_ne_nil (n : Node) : n.chars ≠ [] := by
  cases n with
  | primitive word i =>
    rw [chars_primitive]
    have hw := written_writeValue word
    generalize (writeValue word).toList = cs at hw
    cases hw with
    | bare hne _ => exact hne
    | quoted => simp
  | object name props i => simp [chars_object]
  | list name op items i => simp [chars_list]

theorem feeds_append {cs : List Char} (h : ∀ c ∈ cs, InLine c) (ds : List Char) :
    Source.feeds (cs ++ ds) = cs ++ Source.feeds ds := by
  induction cs with
  | nil => rfl
  | cons c cs ih =>
    have hc : c ≠ '\r' := (h c List.mem_cons_self).2
    rw [List.cons_append, Source.feeds.eq_4 c _ (fun _ h' _ => hc h') hc,
      ih fun d hd => h d (List.mem_cons_of_mem c hd), List.cons_append]

theorem feeds_separator (p : Separator) {cs : List Char} (h : cs.head? ≠ some '\n') :
    Source.feeds (p.text.toList ++ cs) = p.char :: Source.feeds cs := by
  cases p with
  | comma => rfl
  | lineFeed => rfl
  | carriageReturn =>
    refine Source.feeds.eq_3 cs ?_
    rintro ds rfl
    exact h rfl
  | returnAndFeed => rfl

theorem feeds_separatedText (items : List Separated) {closer : Char} (hc : InLine closer) :
    Source.feeds ((separatedText items).toList ++ [closer]) = separatedChars [closer] items := by
  have hclose : Source.feeds [closer] = [closer] := by
    rw [← List.append_nil [closer], feeds_append (by simpa using hc)]
    rfl
  fun_induction separatedText items with
  | case1 => exact hclose
  | case2 x =>
    rw [separatedChars, behind, ← Node.chars, feeds_append fun c => inLine_chars x.2, hclose]
  | case3 x y ys ih =>
    have hhead : ((separatedText (y :: ys)).toList ++ [closer]).head? ≠ some '\n' := by
      have hy : ((separatedText (y :: ys)).toList ++ [closer]).head? = y.2.chars.head? := by
        cases ys with
        | nil => rw [separatedText, ← Node.chars, List.head?_append_of_ne_nil _ (chars_ne_nil _)]
        | cons z zs =>
          rw [separatedText, String.toList_append, String.toList_append, ← Node.chars,
            List.append_assoc, List.append_assoc, List.head?_append_of_ne_nil _ (chars_ne_nil _)]
      rw [hy]
      intro hn
      exact (inLine_chars y.2 (List.mem_of_mem_head? hn)).1 rfl
    rw [String.toList_append, String.toList_append, ← Node.chars, List.append_assoc,
      List.append_assoc, feeds_append fun c => inLine_chars x.2, feeds_separator y.1 hhead, ih]
    rfl

theorem length_le_separatedChars (closing : List Char) (items : List Separated) :
    items.length ≤ (separatedChars closing items).length
      ∧ ∀ x ∈ items, x.2.chars.length ≤ (separatedChars closing items).length := by
  induction items with
  | nil => simp
  | cons x xs ih =>
    have hpos : 0 < x.2.chars.length := List.length_pos_iff.mpr (chars_ne_nil x.2)
    have hlen : x.2.chars.length + (separatedChars closing xs).length
        ≤ (separatedChars closing (x :: xs)).length := by
      cases xs with
      | nil => simp [separatedChars, behind]
      | cons y ys =>
        have hcons : separatedChars closing (x :: y :: ys)
            = x.2.chars ++ y.1.char :: separatedChars closing (y :: ys) := rfl
        rw [hcons, List.length_append, List.length_cons]
        omega
    refine ⟨by rw [List.length_cons]; omega, fun y hy => ?_⟩
    rcases List.mem_cons.mp hy with rfl | hy
    · omega
    · have := ih.2 y hy
      omega

theorem delimited_behind (closer : Char) (hc : closer ∈ delimiters) (rest : List Char)
    (xs : List Separated) : Delimited (behind (closer :: rest) xs) := by
  cases xs with
  | nil => exact delimited_cons hc rest
  | cons x xs =>
    rcases x.1.char_cases with h | h
    · rw [behind, h.1]
      exact delimited_cons (by decide) _
    · rw [behind, h.1]
      exact delimited_cons (by decide) _

/-! ## Turns -/

/-- What a turn over values leads to where these remain: the end of the collection, or a further
turn in front of the next value. -/
def Continues (mode : ReadMode) (closer : Char) (rest : List Char) (done : List Node)
    (xs : List Separated) (r : Turn (List Node)) (t : ParserState) : Prop :=
  match xs with
  | [] => r = .done done ∧ t.tokenizer.Rests rest
  | x :: xs => r = .again done
    ∧ t.tokenizer.Poised mode (separatedChars (closer :: rest) (x :: xs))

/-- In front of values that are left, a turn takes the first of the values that they are taken
for. -/
def Takes (entry : List Node → Parser (Turn (List Node))) (mode : ReadMode) (closer : Char)
    (values : List Separated → List Node) (x : Separated) (xs : List Separated) : Prop :=
  ∃ v ys, values (x :: xs) = v :: values ys ∧ ys <:+ xs
    ∧ ∀ root rest done s, Quiet root s →
      s.tokenizer.Poised mode (separatedChars (closer :: rest) (x :: xs)) →
      Yields (entry done) s fun r t =>
        (∃ m, m.withoutInfo = v.withoutInfo ∧ Continues mode closer rest (done ++ [m]) ys r t)
          ∧ Quiet root t

theorem turns_separated {entry : List Node → Parser (Turn (List Node))} {mode : ReadMode}
    {closer : Char} {values : List Separated → List Node} (hnil : values [] = [])
    (hclose : ∀ root rest done s, Quiet root s → s.tokenizer.Poised mode (closer :: rest) →
      Yields (entry done) s fun r t => r = .done done ∧ Quiet root t ∧ t.tokenizer.Rests rest)
    {items : List Separated}
    (hentry : ∀ x xs, x :: xs <:+ items → Takes entry mode closer values x xs)
    {n : Nat} {done : List Node} (hn : items.length < n) (hq : Quiet root s)
    (hp : s.tokenizer.Poised mode (separatedChars (closer :: rest) items)) :
    Yields (turns entry n done) s fun ms t =>
      ms.map withoutInfo = (done ++ values items).map withoutInfo ∧ Quiet root t
        ∧ t.tokenizer.Rests rest := by
  induction n generalizing items done s with
  | zero => omega
  | succ n ih =>
    cases items with
    | nil =>
      refine Yields.bind (hclose root rest done s hq hp) fun r t ht => ?_
      obtain ⟨rfl, hqt, hrt⟩ := ht
      rw [hnil, List.append_nil]
      exact ⟨rfl, hqt, hrt⟩
    | cons x xs =>
      obtain ⟨v, ys, hv, hys, hread⟩ := hentry x xs List.suffix_rfl
      refine Yields.bind (hread root rest done s hq hp) fun r t ht => ?_
      obtain ⟨⟨m, hm, hc⟩, hqt⟩ := ht
      cases ys with
      | nil =>
        obtain ⟨rfl, hrt⟩ := hc
        have hmap : (done ++ [m]).map withoutInfo = (done ++ values (x :: xs)).map withoutInfo := by
          simp [hv, hnil, hm]
        exact ⟨hmap, hqt, hrt⟩
      | cons y ys =>
        obtain ⟨rfl, hpt⟩ := hc
        have hlen := hys.length_le
        have hcount : (y :: ys).length < n := by
          simp only [List.length_cons] at hn hlen ⊢
          omega
        refine (ih (fun z zs hz => hentry z zs (hz.trans (hys.trans (List.suffix_cons x xs))))
          hcount hqt hpt).mono fun ms u hu => ?_
        refine ⟨?_, hu.2⟩
        rw [hu.1, hv]
        simp [hm]

/-! ## Lists -/

variable {inner : Parser (Option Node)}

theorem listSeparator_behind (done : List Node) (xs : List Separated) (hq : Quiet root s)
    (hr : s.tokenizer.Rests (behind (']' :: rest) xs)) :
    Yields (listSeparator inner done) s fun r t =>
      Continues .unexpected ']' rest done xs r t ∧ Quiet root t := by
  cases xs with
  | nil =>
    refine Yields.next_hand hq (hr.poised .unexpected) (lexes_sign rfl rest) (by simp)
      fun start t hqt ht => ?_
    exact ⟨⟨rfl, ht.toRests⟩, hqt⟩
  | cons x xs =>
    rw [behind_cons] at hr
    rcases x.1.char_cases with ⟨hc, -⟩ | ⟨hc, -⟩
    · rw [hc] at hr
      refine Yields.next_hand hq (hr.poised .unexpected) (lexes_sign rfl _) (by simp)
        fun start t hqt ht => ?_
      exact ⟨⟨rfl, ht.toRests.poised .unexpected⟩, hqt⟩
    · rw [hc] at hr
      refine Yields.next_hand hq (hr.poised .unexpected) (lexes_sign rfl _) (by simp)
        fun start t hqt ht => ?_
      have hstarts := starts_chars x.2 (delimited_behind ']' (by decide) rest xs)
      refine Yields.look .unexpected hqt (ht.toRests.poised .unexpected) hstarts (by decide)
        fun kind start' u hk hback => ?_
      have hne : (kind != .comma) = true := by
        rcases hk with rfl | hk
        · rfl
        · cases kind <;> first | rfl | exact absurd hk (by decide)
      refine Yields.of_ite (fun _ => ?_) fun h => absurd hne h
      exact Yields.bind hback fun _ v hv => ⟨⟨rfl, hv.2⟩, hv.1⟩

theorem listEntry_takes {x : Separated} (hi : Collects inner false x.2) (xs : List Separated) :
    Takes (listEntry inner) .unexpected ']' (elements false) x xs := by
  refine ⟨x.2, xs, rfl, List.suffix_rfl, fun root rest done s hq hp => ?_⟩
  have hf : Follow false (behind (']' :: rest) xs) := by
    cases xs with
    | nil => exact follow_cons (by decide) rest
    | cons y ys =>
      rcases y.1.char_cases with ⟨hc, -⟩ | ⟨hc, -⟩
      · rw [behind_cons, hc]
        exact follow_cons (by decide) _
      · rw [behind_cons, hc]
        exact follow_lineBreak _
  refine Yields.look .value hq hp (starts_chars x.2 hf.delimited) (by decide)
    fun kind start t hk hback => ?_
  have hne := element_kind_ne hk
  split
  · exact absurd ‹_› hne.1
  · exact absurd ‹_› hne.2.1
  · exact absurd ‹_› hne.2.2
  · refine Yields.bind hback fun _ u hu => ?_
    refine Yields.bind (expr_back hi hu.1 hu.2 hf) fun v w hw => ?_
    obtain ⟨⟨m, rfl, hm⟩, hqw, hrw⟩ := hw
    refine (listSeparator_behind (done ++ [m]) xs hqw hrw).mono fun r y hy => ?_
    exact ⟨⟨m, hm, hy.1⟩, hy.2⟩

theorem list_separated {items : List Separated} {text : List Char}
    (hi : ∀ x ∈ items, Collects inner false x.2) (name : String) (start : Nat) (hq : Quiet root s)
    (hs : s.tokenizer.Since text (separatedChars (']' :: rest) items))
    (hlen : items.length ≤ text.length) :
    Yields (list inner name start) s fun m t =>
      m.withoutInfo = (Node.list name false (elements false items) {}).withoutInfo ∧ Quiet root t
        ∧ t.tokenizer.Rests rest := by
  have hloop : Yields (loop (listEntry inner) []) s fun ms t =>
      ms.map withoutInfo = (elements false items).map withoutInfo ∧ Quiet root t
        ∧ t.tokenizer.Rests rest := by
    refine Yields.get_bind ?_
    rw [hs.committed]
    refine turns_separated rfl (fun root rest done s hq hp => ?_) (fun x xs hxs => ?_) (by omega) hq
      (hs.toRests.poised .unexpected)
    · refine Yields.discard_hold hq hp (lexes_sign rfl rest) (by simp) fun start t hqt ht => ?_
      exact ⟨rfl, hqt, ht.toRests⟩
    · exact listEntry_takes (hi x (hxs.subset List.mem_cons_self)) xs
  refine Yields.bind hloop fun ms t ht => ?_
  exact ⟨withoutInfo_list ht.1 name false start {}, ht.2⟩

/-! ## Operations -/

theorem starts_literal {n : Node} (h : n.isPrimitive = true ∨ Template.wordOf n ≠ "")
    (hr : Delimited rest) :
    ∃ cs after, n.chars ++ rest = cs ++ after ∧ Written (Template.wordOf n) cs
      ∧ Delimited after := by
  cases n with
  | primitive word i =>
    rw [chars_primitive]
    exact ⟨_, rest, rfl, written_writeValue word, hr⟩
  | object name props i =>
    have hn : name ≠ "" := h.resolve_left (by simp [isPrimitive])
    rw [chars_object, List.append_assoc, List.cons_append]
    exact ⟨_, _, rfl, written_writeOptionalName hn, delimited_cons (by decide) _⟩
  | list name op items i =>
    have hn : name ≠ "" := h.resolve_left (by simp [isPrimitive])
    rw [chars_list, List.append_assoc, List.cons_append]
    refine ⟨_, _, rfl, written_writeOptionalName hn, delimited_cons ?_ _⟩
    cases op <;> decide

theorem follow_behind {x : Separated} (hx : x.2.isPrimitive = true) {xs : List Separated}
    (h : ∀ y ∈ xs.head?, joins x y = false) : Follow true (behind (')' :: rest) xs) := by
  cases xs with
  | nil => exact follow_cons (by decide) rest
  | cons y ys =>
    rw [behind_cons]
    rcases y.1.char_cases with ⟨hc, -⟩ | ⟨hc, hne⟩
    · rw [hc]
      exact follow_cons (by decide) _
    · have hj := h y rfl
      have hy : y.2.isPrimitive = true ∨ Template.wordOf y.2 ≠ "" := by
        cases hp : y.2.isPrimitive with
        | true => exact .inl rfl
        | false =>
          refine .inr fun hw => ?_
          simp [joins, hx, hne, hp, hw] at hj
      have hd := delimited_behind ')' (by decide) rest ys
      obtain ⟨cs, after, heq, hwritten, hafter⟩ := starts_literal hy hd
      obtain ⟨final, hl⟩ := lexes_written_unexpected hwritten (ends_of_delimited rfl hafter)
      rw [hc, separatedChars, heq]
      exact ⟨delimited_cons (by decide) _, .unexpected, none, final,
        .past rfl hl (by decide), rfl⟩

theorem operationSeparator_behind (done : List Node) (xs : List Separated) (hq : Quiet root s)
    (hr : s.tokenizer.Rests (behind (')' :: rest) xs)) :
    Yields (operationSeparator done) s fun r t =>
      Continues .operation ')' rest done xs r t ∧ Quiet root t := by
  cases xs with
  | nil =>
    refine Yields.discard_hold hq (hr.poised .operation) (lexes_sign rfl rest) (by simp)
      fun start t hqt ht => ?_
    exact ⟨⟨rfl, ht.toRests⟩, hqt⟩
  | cons x xs =>
    rw [behind_cons] at hr
    rcases x.1.char_cases with ⟨hc, -⟩ | ⟨hc, -⟩
    · rw [hc] at hr
      refine Yields.discard_hold hq (hr.poised .operation) (lexes_sign rfl _) (by simp)
        fun start t hqt ht => ?_
      exact ⟨⟨rfl, ht.toRests.poised .operation⟩, hqt⟩
    · rw [hc] at hr
      refine Yields.discard_hold hq (hr.poised .operation) (lexes_sign rfl _) (by simp)
        fun start t hqt ht => ?_
      have hstarts := starts_chars x.2 (delimited_behind ')' (by decide) rest xs)
      obtain ⟨kind, literal, after, hl, hfirst⟩ := hstarts.lexes .operation rfl rfl
      refine Yields.discard_hold hqt (ht.toRests.poised .operation) hl
        (fun _ => hfirst.kind_ne rfl rfl) fun start' u hqu hu => ?_
      have hne : (kind != .comma) = true := bne_iff_ne.mpr (hfirst.kind_ne rfl rfl)
      refine Yields.of_ite (fun _ => ?_) fun h => absurd hne h
      exact Yields.replay_bind hqu hu hl fun v hqv hv => ⟨⟨rfl, hv⟩, hqv⟩

/-- A word in front of a line break and an unnamed collection is the name of the collection. -/
theorem term_joined {depth : Nat} {word : String} {i : NodeInfo} {n : Node} {kind : TokenKind}
    {c : Char} {body : List Char} (hb : Bracketed depth n kind c body)
    (hname : Template.wordOf n = "") (hn : n.isPrimitive = false)
    (hq : Quiet root s) (hp : s.tokenizer.Poised .operation
      ((Node.primitive word i).chars ++ '\n' :: (n.chars ++ rest))) :
    Yields (term inner (collection (depth + 1) true)) s fun m t =>
      m.withoutInfo = (n.setName word).withoutInfo ∧ Quiet root t ∧ t.tokenizer.Rests rest := by
  have hchars : n.chars ++ rest = c :: (body ++ rest) := by
    rw [hb.chars_eq, hname, List.append_assoc, List.cons_append]
    rfl
  have hd : Delimited ('\n' :: (n.chars ++ rest)) := delimited_cons (by decide) _
  obtain ⟨wordKind, hword, hl⟩ : ∃ kind : TokenKind, kind.holdsText = true ∧ Lexes .operation
      ((Node.primitive word i).chars ++ '\n' :: (n.chars ++ rest)) kind (some word)
      ('\n' :: (n.chars ++ rest)) := lexes_primitive rfl rfl word i hd
  have hsees : Sees true kind none (body ++ rest) {} ('\n' :: (n.chars ++ rest)) := by
    rw [hchars]
    exact .past rfl (hb.lexes .unexpected (by decide) _) (isOpening_ne_lineBreak hb.opens)
  have hlen :
      body.length ≤ ((Node.primitive word i).chars ++ '\n' :: (n.chars ++ rest)).length := by
    rw [hchars]
    simp only [List.length_append, List.length_cons]
    omega
  have hread : Yields (collection (depth + 1) true)
      { s with tokenizer := s.tokenizer.discard } fun v t =>
        Collected (n.setName word) ((Node.primitive word i).chars ++ '\n' :: (n.chars ++ rest)) rest
          v t ∧ Quiet root t :=
    collection_named hb.opens hword hl hsees
      (fun start t hqt ht => hb.reads word root rest _ start t hqt ht hlen) hq.discard hp.discard
  refine Yields.modify_bind (Yields.bind hread fun v t ht => ?_)
  obtain ⟨hv, hqt⟩ := ht
  cases v with
  | some m => exact ⟨hv.1, hqt, hv.2⟩
  | none =>
    have hprim : (n.setName word).isPrimitive = n.isPrimitive := by cases n <;> rfl
    exact absurd (hv.1.symm.trans (hprim.trans hn)) (by decide)

theorem operationEntry_term {x : Separated} {xs ys : List Separated} {operand : Parser Node}
    {v : Node} {done : List Node} (hq : Quiet root s)
    (hp : s.tokenizer.Poised .operation (separatedChars (')' :: rest) (x :: xs)))
    (hterm : ∀ t, Quiet root t →
      t.tokenizer.Poised .operation (separatedChars (')' :: rest) (x :: xs)) →
      Yields operand t fun m u => m.withoutInfo = v.withoutInfo ∧ Quiet root u
        ∧ u.tokenizer.Rests (behind (')' :: rest) ys)) :
    Yields (operationEntry operand done) s fun r t =>
      (∃ m, m.withoutInfo = v.withoutInfo ∧ Continues .operation ')' rest (done ++ [m]) ys r t)
        ∧ Quiet root t := by
  obtain ⟨kind, literal, after, hl, hfirst⟩ :=
    (starts_chars x.2 (delimited_behind ')' (by decide) rest xs)).lexes .operation rfl rfl
  refine Yields.discard_hold hq hp hl (fun _ => hfirst.kind_ne rfl rfl) fun start t hqt ht => ?_
  split
  · exact absurd ‹_› (hfirst.kind_ne rfl rfl)
  · exact absurd ‹_› (hfirst.kind_ne rfl rfl)
  · exact absurd ‹_› (hfirst.kind_ne rfl rfl)
  · refine Yields.replay_bind hqt ht hl fun u hqu hu => ?_
    refine Yields.bind (hterm u hqu hu) fun m w hw => ?_
    obtain ⟨hm, hqw, hrw⟩ := hw
    refine (operationSeparator_behind (done ++ [m]) ys hqw hrw).mono fun r y hy => ?_
    exact ⟨⟨m, hm, hy.1⟩, hy.2⟩

theorem operationEntry_takes {depth : Nat} {x : Separated} {xs : List Separated}
    (h : ∀ y ∈ x :: xs, y.2.Keyed ∧ y.2.Ungrouped ∧ y.2.chars.length ≤ depth) :
    Takes (operationEntry (term inner (collection (depth + 1) true))) .operation ')' (elements true)
      x xs := by
  have hback {m : Node} (b : Bool) (hk : m.Keyed) (hu : m.Ungrouped)
      (hlt : m.chars.length < depth) : Collects (collection depth b) b m :=
    collection_back hk hu hlt b
  have hx := h x List.mem_cons_self
  have hx' : Collects (collection (depth + 1) true) true x.2 :=
    collection_back hx.1 hx.2.1 (by omega) true
  cases xs with
  | nil =>
    refine ⟨x.2, [], rfl, List.suffix_rfl, fun root rest done s hq hp => ?_⟩
    exact operationEntry_term hq hp fun t hqt hpt =>
      term_back hx' hqt hpt fun _ => follow_cons (by decide) rest
  | cons y ys =>
    cases hj : joins x y with
    | false =>
      refine ⟨x.2, y :: ys, ?_, List.suffix_rfl, fun root rest done s hq hp => ?_⟩
      · simp [elements, regroup, hj]
      · exact operationEntry_term hq hp fun t hqt hpt =>
          term_back hx' hqt hpt fun hprim => follow_behind hprim (by simpa using hj)
    | true =>
      have hparts := hj
      simp only [joins, Bool.and_eq_true, bne_iff_ne, ne_eq, Bool.not_eq_true', beq_iff_eq]
        at hparts
      obtain ⟨⟨⟨hprim, hsep⟩, hcoll⟩, hname⟩ := hparts
      obtain ⟨word, i, hword⟩ := exists_primitive hprim
      have hy := h y (List.mem_cons_of_mem x List.mem_cons_self)
      obtain ⟨kind, c, body, hb⟩ := exists_bracketed hcoll hy.1 hy.2.1
        fun m b hk hu hlt => hback b hk hu (Nat.lt_of_lt_of_le hlt hy.2.2)
      refine ⟨y.2.setName word, ys, ?_, List.suffix_cons y ys, fun root rest done s hq hp => ?_⟩
      · have hw : Template.wordOf x.2 = word := by rw [hword]; rfl
        simp [elements, regroup, hj, hw]
      · refine operationEntry_term hq hp fun t hqt hpt => ?_
        have hchar : y.1.char = '\n' := (y.1.char_cases.resolve_left fun hc => hsep hc.2).1
        rw [separatedChars, behind, hchar, hword] at hpt
        exact term_joined hb hname hcoll hqt hpt

theorem operation_separated {depth : Nat} {items : List Separated} {text : List Char}
    (h : ∀ x ∈ items, x.2.Keyed ∧ x.2.Ungrouped ∧ x.2.chars.length ≤ depth) (name : String)
    (start : Nat) (hq : Quiet root s)
    (hs : s.tokenizer.Since text (separatedChars (')' :: rest) items))
    (hlen : items.length ≤ text.length) :
    Yields (operation inner (collection (depth + 1) true) name start) s fun m t =>
      m.withoutInfo = (Node.list name true (elements true items) {}).withoutInfo ∧ Quiet root t
        ∧ t.tokenizer.Rests rest := by
  have hloop : Yields (loop (operationEntry (term inner (collection (depth + 1) true))) []) s
      fun ms t => ms.map withoutInfo = (elements true items).map withoutInfo ∧ Quiet root t
        ∧ t.tokenizer.Rests rest := by
    refine Yields.get_bind ?_
    rw [hs.committed]
    refine turns_separated rfl (fun root rest done s hq hp => ?_) (fun x xs hxs => ?_) (by omega) hq
      (hs.toRests.poised .operation)
    · refine Yields.discard_hold hq hp (lexes_sign rfl rest) (by simp) fun start t hqt ht => ?_
      exact ⟨rfl, hqt, ht.toRests⟩
    · exact operationEntry_takes fun y hy => h y (hxs.subset hy)
  have hitems : Yields (operationItems inner (collection (depth + 1) true)) s fun ms t =>
      ms.map withoutInfo = (elements true items).map withoutInfo ∧ Quiet root t
        ∧ t.tokenizer.Rests rest := by
    have ho : s.visible.operators.levels = [] := by rw [hq.visible]; exact levels_empty
    refine Yields.get_bind ?_
    rw [ho]
    exact hloop
  refine Yields.bind hitems fun ms t ht => ?_
  exact ⟨withoutInfo_list ht.1 name true start {}, ht.2⟩

/-! ## Scripts of one collection -/

/-- The characters of the collection in a source. -/
def collectionChars (name : String) (op : Bool) (items : List Separated) : List Char :=
  (writeName name).toList
    ++ (if op then '(' else '[') :: separatedChars [if op then ')' else ']'] items

theorem chars_ofText_collectionText (name : String) (op : Bool) (items : List Separated) :
    (Source.ofText (collectionText name op items)).chars = collectionChars name op items := by
  have hname : ∀ c ∈ (writeName name).toList, InLine c :=
    fun c hc => (written_writeName name).inLine hc
  have hopen : (if op then "(" else "[").toList = [if op then '(' else '['] := by
    cases op <;> rfl
  have hclose : (if op then ")" else "]").toList = [if op then ')' else ']'] := by
    cases op <;> rfl
  have hinOpen : ∀ c ∈ [if op then '(' else '['], InLine c := by
    cases op <;> simp [InLine]
  have hinClose : InLine (if op then ')' else ']') := by
    cases op <;> simp [InLine]
  rw [Source.chars_ofText_eq_feeds, collectionText, String.toList_append, String.toList_append,
    String.toList_append, hopen, hclose, List.append_assoc, List.append_assoc, feeds_append hname,
    feeds_append hinOpen, feeds_separatedText items hinClose]
  rfl

/-- The collection is read back behind its name. -/
theorem topCollection_separated (name : String) (op : Bool) {items : List Separated}
    (h : ∀ x ∈ items, x.2.Keyed ∧ x.2.Ungrouped) (hq : Quiet root s)
    (hp : s.tokenizer.Poised .value (collectionChars name op items))
    (hcommitted : s.tokenizer.committed.rest = collectionChars name op items) :
    Yields topCollection s fun v t => (∃ m, v = some m
      ∧ m.withoutInfo = (Node.list name op (elements op items) {}).withoutInfo
      ∧ t.tokenizer.Rests []) ∧ Quiet root t := by
  have hlen := length_le_separatedChars [if op then ')' else ']'] items
  have hlength : (separatedChars [if op then ')' else ']'] items).length
      ≤ (collectionChars name op items).length := by
    rw [collectionChars, List.length_append, List.length_cons]
    omega
  have hvalues : ∀ x ∈ items, x.2.Keyed ∧ x.2.Ungrouped
      ∧ x.2.chars.length ≤ (collectionChars name op items).length :=
    fun x hx => ⟨(h x hx).1, (h x hx).2, Nat.le_trans (hlen.2 x hx) hlength⟩
  have hcount : items.length ≤ (collectionChars name op items).length :=
    Nat.le_trans hlen.1 hlength
  have hbracket : (if op then '(' else '[') ∈ delimiters := by cases op <;> decide
  obtain ⟨wordKind, hword, hl⟩ := lexes_written .value rfl (written_writeName name)
    (ends_of_delimited rfl (delimited_cons hbracket
      (separatedChars [if op then ')' else ']'] items)))
  have hopening : Yields (collection ((collectionChars name op items).length + 2) false) s
      fun v t => Collected (.list name op (elements op items) {}) (collectionChars name op items) []
        v t ∧ Quiet root t := by
    cases op with
    | false =>
      have hopens : isOpening .leftBracket = true := rfl
      refine collection_named hopens hword hl (.here (lexes_leftBracket (by decide) _) (by simp))
        (fun start t hqt ht => ?_) hq hp
      refine list_separated (fun x hx => ?_) name start hqt ht hcount
      exact collection_back (hvalues x hx).1 (hvalues x hx).2.1
        (Nat.lt_succ_of_le (hvalues x hx).2.2) false
    | true =>
      have hopens : isOpening .leftParen = true := rfl
      refine collection_named hopens hword hl (.here (lexes_leftParen (by decide) _) (by simp))
        (fun start t hqt ht => ?_) hq hp
      exact operation_separated hvalues name start hqt ht hcount
  refine Yields.get_bind ?_
  rw [hcommitted]
  refine hopening.mono fun v t ht => ?_
  obtain ⟨hv, hqt⟩ := ht
  cases v with
  | some m => exact ⟨⟨m, rfl, hv.1, hv.2⟩, hqt⟩
  | none => exact absurd hv.1 (by simp [isPrimitive])

variable {σ : Type}

theorem compile_separated (config : Config) (resolve : Resolver σ) (imports : σ) {name : String}
    (hname : name ∉ statementWords) (op : Bool) {items : List Separated}
    (hitems : ∀ x ∈ items, x.2.Keyed ∧ x.2.Ungrouped) :
    let c := (compile config resolve {} (Source.ofText (collectionText name op items)) imports).1
    c.reports = [] ∧ ∃ m, c.root = [m]
      ∧ m.withoutInfo = (Node.list name op (elements op items) {}).withoutInfo := by
  have hchars := chars_ofText_collectionText name op items
  have hbracket : (if op then '(' else '[') ∈ delimiters := by cases op <;> decide
  have hstarts : Starts name (collectionChars name op items) :=
    .literal _ _ rfl (written_writeName name) (delimited_cons hbracket _)
  obtain ⟨kind, literal, after, hl, hfirst⟩ := hstarts.lexes .plainWord rfl rfl
  have hstatement := statement_collection
    (start_noted config (Source.ofText (collectionText name op items)))
    ⟨rfl, hchars⟩ hl hfirst hname fun t hst hp hcommitted => by
      refine (hst.yields (Q := fun v u => ∃ m, v = some m
        ∧ m.withoutInfo = (Node.list name op (elements op items) {}).withoutInfo ∧ u.Rests [])
        heedless_rules.topCollection topCollection_extends fun u hqu hu => ?_).mono
          fun v u hu => ?_
      · exact topCollection_separated name op hitems hqu (hu ▸ hp) (hu ▸ hcommitted)
      · obtain ⟨⟨m, hv, hm, hr⟩, hsu⟩ := hu
        exact ⟨m, hv, hm, hsu, hr⟩
  obtain ⟨m, hroot, hm, hreports⟩ := compile_single resolve imports hstatement
  exact ⟨List.map_eq_nil_iff.mp hreports, m, hroot, hm⟩

/-- However the values of a list are separated, by commas or by line breaks, the list is read
without reports and holds these values. In an operation a primitive in front of a line break and an
unnamed collection names that collection; where there is none, the operation holds these values
too. -/
theorem compile_collectionText (config : Config) (resolve : Resolver σ) (imports : σ)
    {name : String}
    (hname : name ∉ statementWords) (op : Bool) (items : List Separated)
    (hitems : ∀ x ∈ items, x.2.Keyed ∧ x.2.Ungrouped) :
    let c := (compile config resolve {} (Source.ofText (collectionText name op items)) imports).1
    let commas := (compile config resolve {}
      (Source.ofText (collectionText name op (withCommas items))) imports).1
    c.reports = []
      ∧ (∃ m, c.root = [m]
        ∧ m.withoutInfo = (Node.list name op (elements op items) {}).withoutInfo
        ∧ same m (.list name op (elements op items) {}) = true)
      ∧ ((op = true → items.IsChain fun x y => joins x y = false) →
        c.root.map withoutInfo = commas.root.map withoutInfo) := by
  intro c commas
  obtain ⟨hreports, m, hroot, hm⟩ := compile_separated config resolve imports hname op hitems
  refine ⟨hreports, ⟨m, hroot, hm, same_of_withoutInfo _ _ ?_ hm⟩, fun hchain => ?_⟩
  · rw [Keyed]
    exact keyedItems_iff.mpr (keyed_elements (fun x hx => (hitems x hx).1) op)
  · have hcommas : ∀ x ∈ withCommas items, x.2.Keyed ∧ x.2.Ungrouped := by
      intro x hx
      obtain ⟨y, hy, rfl⟩ := List.mem_map.mp hx
      exact hitems y hy
    obtain ⟨-, n, hroot', hn⟩ := compile_separated config resolve imports hname op hcommas
    have hvalues : elements op items = items.map Prod.snd := by
      cases op with
      | false => rfl
      | true => exact regroup_of_apart (hchain rfl)
    have hsame : m.withoutInfo = n.withoutInfo := by
      rw [hm, hn, hvalues, elements_withCommas]
    rw [hroot, hroot', List.map_singleton, List.map_singleton, hsame]

/-- A primitive and an unnamed list with a line break between them, and a further primitive. -/
theorem compile_collectionText_lines :
    let resolve : Resolver Unit := fun _ i => (.crashed, i)
    let items : List Separated := [(.comma, .value "a"),
      (.lineFeed, .list "" false [.value "b"] {}),
      (.returnAndFeed, .value "c")]
    "f" ∉ statementWords ∧ (∀ x ∈ items, x.2.Keyed ∧ x.2.Ungrouped) ∧
      let c := (compile {} resolve {} (Source.ofText (collectionText "f" true items)) ()).1
      let commas := (compile {} resolve {}
        (Source.ofText (collectionText "f" true (withCommas items))) ()).1
      c.reports = []
        ∧ (∃ m, c.root = [m]
          ∧ m.withoutInfo = .list "f" true [.list "a" false [.value "b"] {}, .value "c"] {}
          ∧ same m (.list "f" true [.list "a" false [.value "b"] {}, .value "c"] {}) = true)
        ∧ ((true = true → items.IsChain fun x y => joins x y = false) →
          c.root.map withoutInfo = commas.root.map withoutInfo) := by
  intro resolve items
  have hname : "f" ∉ statementWords := by decide
  have hitems : ∀ x ∈ items, x.2.Keyed ∧ x.2.Ungrouped := by
    intro x hx
    simp only [items, List.mem_cons, List.not_mem_nil, or_false] at hx
    rcases hx with rfl | rfl | rfl
    · exact ⟨trivial, trivial⟩
    · exact ⟨⟨trivial, trivial⟩, by simp, trivial, trivial⟩
    · exact ⟨trivial, trivial⟩
  exact ⟨hname, hitems, compile_collectionText {} resolve () hname true items hitems⟩

/-- The line break does not stand for a comma there. -/
theorem lineBreak_names_collection :
    let resolve : Resolver Unit := fun _ i => (.crashed, i)
    let text (items : List Separated) := collectionText "f" true items
    let items : List Separated := [(.comma, .value "a"),
      (.lineFeed, .list "" false [.value "b"] {})]
    let c := (compile {} resolve {} (Source.ofText (text items)) ()).1
    let commas := (compile {} resolve {} (Source.ofText (text (withCommas items))) ()).1
    (∀ x ∈ items, x.2.Ungrouped) ∧ text items = "f(a\n[b])" ∧ text (withCommas items) = "f(a,[b])"
      ∧ c.root.map Node.text = ["f(a[b])"] ∧ commas.root.map Node.text = ["f(a,[b])"] := by
  refine ⟨?_, by decide +kernel, by decide +kernel, by decide +kernel, by decide +kernel⟩
  intro x hx
  simp only [List.mem_cons, List.not_mem_nil, or_false] at hx
  rcases hx with rfl | rfl
  · exact trivial
  · exact ⟨by simp, trivial, trivial⟩

end ConfigScript.Parser
