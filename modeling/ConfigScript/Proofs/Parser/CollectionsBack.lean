import ConfigScript.Proofs.Parser.EntriesBack

/-! # Collections read back

The reader of collections, with a bound above the length of the text of a node, reads the node
back; the induction is on the bound, since what is nested has less text. -/

namespace ConfigScript.Parser

open Scan Text Node

variable {α γ : Type} {root : List Node} {s : ParserState} {text rest : List Char}
  {inner operationInner : Parser (Option Node)}

/-! ## After the opening bracket -/

theorem loop_entries {entry : List α → Parser (Turn (List α))} {value : α → γ} {closer : Char}
    {chars : α → List Char} (Fits : List α → List α → Prop) (hc : closer ≠ ',')
    (hclose : ReadsCloser entry closer)
    (hentry : ∀ done x xs, Fits done (x :: xs) → ReadsEntry entry value closer done x (chars x))
    (hfits : ∀ done x xs y, Fits done (x :: xs) → value y = value x → Fits (done ++ [y]) xs)
    {xs : List α} (hf : Fits [] xs) (hq : Quiet root s)
    (hs : s.tokenizer.Since text (entryChars (xs.map chars) ++ closer :: rest))
    (hlen : (entryChars (xs.map chars)).length ≤ text.length) :
    Yields (loop entry []) s fun ys t =>
      ys.map value = xs.map value ∧ Quiet root t ∧ t.tokenizer.Rests rest := by
  refine Yields.get_bind ?_
  refine turns_entries hc hclose hentry hfits hf ?_ hq hs.toRests
  have hcount := count_le_entryChars (xs.map chars)
  rw [List.length_map] at hcount
  rw [hs.committed]
  omega

theorem object_back {props : List (String × Node)} (hi : ∀ p ∈ props, Collects inner false p.2)
    (hkeys : (Properties.keys props).Nodup) (name : String) (start : Nat) (hq : Quiet root s)
    (hs : s.tokenizer.Since text (entryChars (props.map propertyChars) ++ '}' :: rest))
    (hlen : (entryChars (props.map propertyChars)).length ≤ text.length) (i : NodeInfo) :
    Yields (object inner name start) s fun m t =>
      m.withoutInfo = (Node.object name props i).withoutInfo ∧ Quiet root t
        ∧ t.tokenizer.Rests rest := by
  have hloop : Yields (loop (objectEntry inner) []) s fun ps t =>
      ps.map propertyValue = props.map propertyValue ∧ Quiet root t ∧ t.tokenizer.Rests rest := by
    refine loop_entries
      (fun done ps => (∀ p ∈ ps, Collects inner false p.2)
        ∧ (Properties.keys done ++ Properties.keys ps).Nodup)
      (by decide) objectEntry_closer ?_ ?_ ⟨hi, hkeys⟩ hq hs hlen
    · rintro done p ps ⟨hps, hnodup⟩
      refine objectEntry_back (hps p List.mem_cons_self) fun hm => ?_
      exact (List.nodup_append.mp hnodup).2.2 p.1 hm p.1 List.mem_cons_self rfl
    · rintro done p ps q ⟨hps, hnodup⟩ hval
      have hkey : (propertyValue q).1 = (propertyValue p).1 := congrArg Prod.fst hval
      simp only [propertyValue] at hkey
      refine ⟨fun r hr => hps r (List.mem_cons_of_mem p hr), ?_⟩
      simpa [Properties.keys, hkey] using hnodup
  refine Yields.bind hloop fun ps t ht => ?_
  obtain ⟨hps, ht⟩ := ht
  have hobject : ((Node.object name ps {}).placedAt start).withoutInfo
      = (Node.object name props i).withoutInfo := by
    rw [withoutInfo_placedAt, withoutInfo, withoutInfo, withoutInfoProperties_eq,
      withoutInfoProperties_eq]
    exact congrArg (Node.object name · {}) hps
  exact ⟨hobject, ht⟩

theorem withoutInfo_list {ns items : List Node} (h : ns.map withoutInfo = items.map withoutInfo)
    (name : String) (op : Bool) (start : Nat) (i : NodeInfo) :
    ((Node.list name op ns {}).placedAt start).withoutInfo
      = (Node.list name op items i).withoutInfo := by
  rw [withoutInfo_placedAt, withoutInfo, withoutInfo, withoutInfoItems_eq, withoutInfoItems_eq, h]

theorem list_back {items : List Node} (hi : ∀ n ∈ items, Collects inner false n) (name : String)
    (start : Nat) (hq : Quiet root s)
    (hs : s.tokenizer.Since text (entryChars (items.map chars) ++ ']' :: rest))
    (hlen : (entryChars (items.map chars)).length ≤ text.length) (i : NodeInfo) :
    Yields (list inner name start) s fun m t =>
      m.withoutInfo = (Node.list name false items i).withoutInfo ∧ Quiet root t
        ∧ t.tokenizer.Rests rest := by
  have hloop : Yields (loop (listEntry inner) []) s fun ns t =>
      ns.map withoutInfo = items.map withoutInfo ∧ Quiet root t ∧ t.tokenizer.Rests rest :=
    loop_entries (fun _ ns => ∀ n ∈ ns, Collects inner false n) (by decide)
      listEntry_closer (fun _ n _ h => listEntry_back (h n List.mem_cons_self))
      (fun _ n _ _ h _ m hm => h m (List.mem_cons_of_mem n hm)) hi hq hs hlen
  refine Yields.bind hloop fun ns t ht => ?_
  obtain ⟨hns, ht⟩ := ht
  exact ⟨withoutInfo_list hns name false start i, ht⟩

theorem levels_empty : ({} : OperatorTable).levels = [] := rfl

theorem operation_back {items : List Node} (hi : ∀ n ∈ items, Collects operationInner true n)
    (name : String) (start : Nat) (hq : Quiet root s)
    (hs : s.tokenizer.Since text (entryChars (items.map chars) ++ ')' :: rest))
    (hlen : (entryChars (items.map chars)).length ≤ text.length) (i : NodeInfo) :
    Yields (operation inner operationInner name start) s fun m t =>
      m.withoutInfo = (Node.list name true items i).withoutInfo ∧ Quiet root t
        ∧ t.tokenizer.Rests rest := by
  have hloop : Yields (loop (operationEntry (term inner operationInner)) []) s fun ns t =>
      ns.map withoutInfo = items.map withoutInfo ∧ Quiet root t ∧ t.tokenizer.Rests rest :=
    loop_entries (fun _ ns => ∀ n ∈ ns, Collects operationInner true n) (by decide)
      (operationEntry_closer _) (fun _ n _ h => operationEntry_back (h n List.mem_cons_self))
      (fun _ n _ _ h _ m hm => h m (List.mem_cons_of_mem n hm)) hi hq hs hlen
  have hitems : Yields (operationItems inner operationInner) s fun ns t =>
      ns.map withoutInfo = items.map withoutInfo ∧ Quiet root t ∧ t.tokenizer.Rests rest := by
    have ho : s.visible.operators.levels = [] := by rw [hq.visible]; exact levels_empty
    refine Yields.get_bind ?_
    rw [ho]
    exact hloop
  refine Yields.bind hitems fun ns t ht => ?_
  obtain ⟨hns, ht⟩ := ht
  exact ⟨withoutInfo_list hns name true start i, ht⟩

/-! ## Collections -/

theorem namedValue_quiet (hq : Quiet root s) (token : Token) (kind : MacroKind) (n : Node) :
    Yields (namedValue token kind n) s fun v t => v = some n ∧ t = s := by
  unfold namedValue
  refine Yields.of_ite (fun _ => ⟨rfl, rfl⟩) fun _ => ?_
  refine Yields.bind (resolveParam?_quiet hq n) fun r t hr => ?_
  obtain ⟨rfl, rfl⟩ := hr
  refine Yields.bind (callMacro_quiet hq n kind token.start) fun m u hm => ?_
  obtain ⟨rfl, rfl⟩ := hm
  exact ⟨rfl, rfl⟩

theorem ungroup_of_ungrouped {m : Node} {name : String} {items : List Node}
    (hm : m.withoutInfo = .list name true items {}) (hu : ¬(name = "" ∧ items.length = 1)) :
    ungroup m = m := by
  unfold ungroup
  split
  · rename_i n i
    simp only [withoutInfo, withoutInfoItems, Node.list.injEq] at hm
    obtain ⟨hname, -, hitems, -⟩ := hm
    exact absurd ⟨hname.symm, by rw [← hitems]; rfl⟩ hu
  · rfl

theorem rulesOf_termMode (inOperation : Bool) :
    (rulesOf (termMode inOperation)).stopAtEquals = false
      ∧ (rulesOf (termMode inOperation)).stopAtBracket = true ∧ termMode inOperation ≠ .key := by
  cases inOperation <;> decide

theorem collection_literal (depth : Nat) (inOperation : Bool) {operators : OperatorTable}
    {kind kind' : TokenKind} {word : String} {literal : Option String} {after : List Char}
    (hq : Quiet root s operators) (hp : s.tokenizer.Poised (termMode inOperation) text operators)
    (hl : Lexes (termMode inOperation) text kind (some word) rest operators)
    (hk : kind.holdsText = true) (hs : Sees inOperation kind' literal after operators rest)
    (ho : isOpening kind' = false) :
    Yields (collection (depth + 1) inOperation) s fun v t =>
      v = none ∧ Quiet root t operators ∧ t.tokenizer.Fresh text := by
  refine Yields.discard_hold hq hp hl (fun _ => TokenKind.ne_of_holdsText hk rfl)
    fun start t hqt ht => ?_
  split
  · exact absurd ‹_› (TokenKind.ne_of_holdsText hk rfl)
  · exact absurd ‹_› (TokenKind.ne_of_holdsText hk rfl)
  · exact absurd ‹_› (TokenKind.ne_of_holdsText hk rfl)
  · refine Yields.of_ite (fun _ => ?_) fun h => absurd rfl h
    refine Yields.next_sees hqt ht.since hs fun start' u hqu hu => ?_
    have hne : ∀ k, isOpening k = true → kind' ≠ k := by
      rintro k hk rfl
      exact absurd (hk.symm.trans ho) (by decide)
    split
    · exact absurd ‹_› (hne _ rfl)
    · exact absurd ‹_› (hne _ rfl)
    · exact absurd ‹_› (hne _ rfl)
    · refine Yields.reread_bind hqu hu fun v hqv hv => ?_
      exact ⟨rfl, hqv, hv⟩

theorem collection_primitive (depth : Nat) {inOperation : Bool} {kind : TokenKind} (word : String)
    (i : NodeInfo) (hq : Quiet root s) (hp : s.tokenizer.Poised (termMode inOperation) text)
    (hl : Lexes (termMode inOperation) text kind (some word) rest) (hk : kind.holdsText = true)
    (hf : Follow inOperation rest) :
    Yields (collection (depth + 1) inOperation) s fun v t =>
      Collected (.primitive word i) text rest v t ∧ Quiet root t := by
  obtain ⟨kind', literal, after, hs, ho⟩ := hf.sees
  refine (collection_literal depth inOperation hq hp hl hk hs ho).mono fun v t ht => ?_
  obtain ⟨rfl, hqt, hfresh⟩ := ht
  exact ⟨⟨rfl, hfresh⟩, hqt⟩

/-- What follows the opening bracket of a kind. -/
def bracketed (inner operationInner : Parser (Option Node)) (kind : TokenKind) (name : String)
    (start : Nat) : Parser Node :=
  match kind with
  | .leftBrace => object inner name start
  | .leftBracket => list inner name start
  | _ => operation inner operationInner name start

theorem collection_unnamed {kind : TokenKind} {depth : Nat} {inOperation : Bool} {n : Node}
    {body : List Char} (hk : isOpening kind = true)
    (hl : Lexes (termMode inOperation) text kind none body)
    (hbody : ∀ start s, Quiet root s → s.tokenizer.Since text body →
      Yields (bracketed (collection depth false) (collection depth true) kind "" start) s
        fun m t => m.withoutInfo = n.withoutInfo ∧ Quiet root t ∧ t.tokenizer.Rests rest)
    (hgroup : ∀ m, m.withoutInfo = n.withoutInfo → ungroup m = m) (hq : Quiet root s)
    (hp : s.tokenizer.Poised (termMode inOperation) text) :
    Yields (collection (depth + 1) inOperation) s fun v t =>
      Collected n text rest v t ∧ Quiet root t := by
  refine Yields.discard_hold hq hp hl (fun _ => isOpening_ne_lineBreak hk) fun start t hqt ht => ?_
  have hread := hbody start t hqt ht.since
  cases kind with
  | leftBrace =>
    refine Yields.bind hread fun m u hu => ?_
    exact ⟨⟨hu.1, hu.2.2⟩, hu.2.1⟩
  | leftBracket =>
    refine Yields.bind hread fun m u hu => ?_
    exact ⟨⟨hu.1, hu.2.2⟩, hu.2.1⟩
  | leftParen =>
    refine Yields.bind hread fun m u hu => ?_
    have hsame : (ungroup m).withoutInfo = n.withoutInfo := by
      rw [hgroup m hu.1]
      exact hu.1
    exact ⟨⟨hsame, hu.2.2⟩, hu.2.1⟩
  | _ => exact absurd hk (by decide)

theorem collection_named {kind wordKind : TokenKind} {depth : Nat} {inOperation : Bool} {n : Node}
    {name : String} {behind body : List Char} (hk : isOpening kind = true)
    (hword : wordKind.holdsText = true)
    (hl : Lexes (termMode inOperation) text wordKind (some name) behind)
    (hsees : Sees inOperation kind none body {} behind)
    (hbody : ∀ start s, Quiet root s → s.tokenizer.Since text body →
      Yields (bracketed (collection depth false) (collection depth true) kind name start) s
        fun m t => m.withoutInfo = n.withoutInfo ∧ Quiet root t ∧ t.tokenizer.Rests rest)
    (hq : Quiet root s) (hp : s.tokenizer.Poised (termMode inOperation) text) :
    Yields (collection (depth + 1) inOperation) s fun v t =>
      Collected n text rest v t ∧ Quiet root t := by
  refine Yields.discard_hold hq hp hl (fun _ => TokenKind.ne_of_holdsText hword rfl)
    fun start t hqt ht => ?_
  split
  · exact absurd ‹_› (TokenKind.ne_of_holdsText hword rfl)
  · exact absurd ‹_› (TokenKind.ne_of_holdsText hword rfl)
  · exact absurd ‹_› (TokenKind.ne_of_holdsText hword rfl)
  · refine Yields.of_ite (fun _ => ?_) fun h => absurd rfl h
    refine Yields.next_sees hqt ht.since hsees fun start' u hqu hu => ?_
    have hread := hbody start u hqu hu
    have hnamed : ∀ (macroKind : MacroKind), Yields
        (bracketed (collection depth false) (collection depth true) kind name start
          >>= namedValue ⟨wordKind, start, some name⟩ macroKind) u
        fun v t => Collected n text rest v t ∧ Quiet root t := by
      intro macroKind
      refine Yields.bind hread fun m v hv => ?_
      obtain ⟨hm, hqv, hrv⟩ := hv
      refine (namedValue_quiet hqv _ macroKind m).mono fun r w hw => ?_
      obtain ⟨rfl, rfl⟩ := hw
      exact ⟨⟨hm, hrv⟩, hqv⟩
    cases kind with
    | leftBrace => exact hnamed .object
    | leftBracket => exact hnamed .list
    | leftParen => exact hnamed .operation
    | _ => exact absurd hk (by decide)

theorem length_lt_of_mem_properties (name : String) {props : List (String × Node)} (i : NodeInfo)
    {p : String × Node} (hp : p ∈ props) :
    p.2.chars.length < (Node.object name props i).chars.length := by
  have h := length_le_entryChars (List.mem_map_of_mem (f := propertyChars) hp)
  simp only [propertyChars, List.length_append, List.length_cons] at h
  simp only [chars_object, List.length_append, List.length_cons]
  omega

theorem length_lt_of_mem (name : String) (op : Bool) {items : List Node} (i : NodeInfo) {n : Node}
    (hn : n ∈ items) : n.chars.length < (Node.list name op items i).chars.length := by
  have h := length_le_entryChars (List.mem_map_of_mem (f := chars) hn)
  simp only [chars_list, List.length_append, List.length_cons]
  omega

/-- The text of a collection is its name and a bracket, which opens it, and what follows the bracket
is read back as the collection, under any name. -/
structure Bracketed (depth : Nat) (n : Node) (kind : TokenKind) (c : Char) (body : List Char) :
    Prop where
  opens : isOpening kind = true
  delimiter : c ∈ delimiters
  lexes : ∀ mode, mode ≠ .key → ∀ rest, Lexes mode (c :: rest) kind none rest
  chars_eq : n.chars = (writeOptionalName (Template.wordOf n)).toList ++ c :: body
  reads : ∀ (name : String) (root : List Node) (rest text : List Char) (start : Nat)
    (s : ParserState),
    Quiet root s → s.tokenizer.Since text (body ++ rest) → body.length ≤ text.length →
    Yields (bracketed (collection depth false) (collection depth true) kind name start) s
      fun m t => m.withoutInfo = (n.setName name).withoutInfo ∧ Quiet root t
        ∧ t.tokenizer.Rests rest

theorem exists_bracketed {depth : Nat} {n : Node} (hn : n.isPrimitive = false) (hk : n.Keyed)
    (hu : n.Ungrouped) (hi : ∀ (m : Node) (b : Bool), m.Keyed → m.Ungrouped →
      m.chars.length < n.chars.length → Collects (collection depth b) b m) :
    ∃ kind c body, Bracketed depth n kind c body := by
  cases n with
  | primitive word i => exact absurd hn (by simp [isPrimitive])
  | object name props i =>
    rw [Keyed] at hk
    rw [Ungrouped] at hu
    have hmembers : ∀ p ∈ props, Collects (collection depth false) false p.2 := fun p hp =>
      hi p.2 false (keyed_of_mem_properties hk.2 hp) (ungrouped_of_mem_properties hu hp)
        (length_lt_of_mem_properties name i hp)
    refine ⟨.leftBrace, '{', entryChars (props.map propertyChars) ++ ['}'], rfl, by decide,
      fun _ _ => lexes_leftBrace _, chars_object name props i, ?_⟩
    intro name' root rest text start s hq hs hlen
    rw [List.append_assoc] at hs
    rw [List.length_append] at hlen
    exact object_back hmembers hk.1 name' start hq hs (by omega) i
  | list name op items i =>
    rw [Keyed] at hk
    rw [Ungrouped] at hu
    have hmembers : ∀ b, ∀ m ∈ items, Collects (collection depth b) b m := fun b m hm =>
      hi m b (keyedItems_iff.mp hk m hm) (ungrouped_of_mem hu.2 hm) (length_lt_of_mem name op i hm)
    cases op with
    | false =>
      refine ⟨.leftBracket, '[', entryChars (items.map chars) ++ [']'], rfl, by decide,
        fun _ => lexes_leftBracket, chars_list name false items i, ?_⟩
      intro name' root rest text start s hq hs hlen
      rw [List.append_assoc] at hs
      rw [List.length_append] at hlen
      exact list_back (hmembers false) name' start hq hs (by omega) i
    | true =>
      refine ⟨.leftParen, '(', entryChars (items.map chars) ++ [')'], rfl, by decide,
        fun _ => lexes_leftParen, chars_list name true items i, ?_⟩
      intro name' root rest text start s hq hs hlen
      rw [List.append_assoc] at hs
      rw [List.length_append] at hlen
      exact operation_back (hmembers true) name' start hq hs (by omega) i

theorem ungroup_of_written {n m : Node} (hu : n.Ungrouped) (hname : Template.wordOf n = "")
    (hm : m.withoutInfo = n.withoutInfo) : ungroup m = m := by
  cases n with
  | primitive word i =>
    cases m with
    | primitive word' j => rfl
    | object name' props' j => simp [withoutInfo] at hm
    | list name' op' items' j => simp [withoutInfo] at hm
  | object name props i =>
    cases m with
    | primitive word' j => rfl
    | object name' props' j => rfl
    | list name' op' items' j => simp [withoutInfo] at hm
  | list name op items i =>
    rw [Ungrouped] at hu
    cases op with
    | false =>
      cases m with
      | primitive word' j => rfl
      | object name' props' j => rfl
      | list name' op' items' j =>
        simp only [withoutInfo, list.injEq] at hm
        rw [hm.2.1, ungroup]
        simp
    | true =>
      refine ungroup_of_ungrouped (hm.trans (withoutInfo.eq_3 ..)) fun hone => ?_
      refine hu.1 ⟨hone.1, rfl, ?_⟩
      simpa [withoutInfoItems_eq] using hone.2

theorem setName_wordOf (n : Node) : n.setName (Template.wordOf n) = n := by
  cases n <;> rfl

/-- A node is read behind what is skipped, if nodes with less text are read back inside of it. -/
theorem collection_behind {lead : List Char} (hlead : Overlooked lead) {depth : Nat} {n : Node}
    (hk : n.Keyed) (hu : n.Ungrouped)
    (hi : ∀ (m : Node) (b : Bool), m.Keyed → m.Ungrouped → m.chars.length < n.chars.length →
      Collects (collection depth b) b m) {inOperation : Bool} (hq : Quiet root s)
    (hp : s.tokenizer.Poised (termMode inOperation) (lead ++ (n.chars ++ rest)))
    (hf : n.isPrimitive = true → Follow inOperation rest) :
    Yields (collection (depth + 1) inOperation) s fun v t =>
      Collected n (lead ++ (n.chars ++ rest)) rest v t ∧ Quiet root t := by
  cases hn : n.isPrimitive with
  | true =>
    obtain ⟨word, i, rfl⟩ := exists_primitive hn
    obtain ⟨he, hb, -⟩ := rulesOf_termMode inOperation
    obtain ⟨kind, hword, hl⟩ := lexes_primitive he hb word i (hf rfl).delimited
    exact collection_primitive depth word i hq hp (hlead _ _ _ _ _ hl) hword (hf rfl)
  | false =>
    obtain ⟨kind, c, body, h⟩ := exists_bracketed hn hk hu hi
    obtain ⟨he, hb, hm⟩ := rulesOf_termMode inOperation
    have hchars : n.chars ++ rest
        = (writeOptionalName (Template.wordOf n)).toList ++ c :: (body ++ rest) := by
      rw [h.chars_eq, List.append_assoc, List.cons_append]
    rw [hchars] at hp ⊢
    have hbody (start : Nat) (t : ParserState) (hqt : Quiet root t)
        (ht : t.tokenizer.Since
          (lead ++ ((writeOptionalName (Template.wordOf n)).toList ++ c :: (body ++ rest)))
          (body ++ rest)) :
        Yields (bracketed (collection depth false) (collection depth true) kind
          (Template.wordOf n) start) t fun m u =>
            m.withoutInfo = n.withoutInfo ∧ Quiet root u ∧ u.tokenizer.Rests rest := by
      have hread := h.reads (Template.wordOf n) root rest _ start t hqt ht (by
        simp only [List.length_append, List.length_cons]
        omega)
      rwa [setName_wordOf] at hread
    by_cases hname : Template.wordOf n = ""
    · have hnone : (writeOptionalName (Template.wordOf n)).toList = [] := by rw [hname]; rfl
      have hl := hlead _ _ _ _ _ (h.lexes (termMode inOperation) hm (body ++ rest))
      rw [hnone, List.nil_append] at hp hbody ⊢
      rw [hname] at hbody
      exact collection_unnamed h.opens hl hbody (fun m hm => ungroup_of_written hu hname hm) hq hp
    · obtain ⟨wordKind, hword, hl⟩ := lexes_written _ he (written_writeOptionalName hname)
        (ends_of_delimited hb (delimited_cons h.delimiter (body ++ rest)))
      exact collection_named h.opens hword (hlead _ _ _ _ _ hl)
        (.here (h.lexes _ (by decide) _) fun _ => isOpening_ne_lineBreak h.opens) hbody hq hp

/-- A collection is read back, and a primitive is left to the readers of literals. -/
theorem collection_back {depth : Nat} {n : Node} (hk : n.Keyed) (hu : n.Ungrouped)
    (hn : n.chars.length < depth) (inOperation : Bool) :
    Collects (collection depth inOperation) inOperation n := by
  induction depth generalizing n inOperation with
  | zero => omega
  | succ depth ih =>
    intro root rest s hq hp hf
    refine collection_behind overlooked_nil hk hu (fun m b hkm hum hlt => ?_) hq hp hf
    exact ih hkm hum (by omega) b

end ConfigScript.Parser
