import ConfigScript.Proofs.Parser.CollectionsBack
import ConfigScript.Proofs.Parser.Substitution
import ConfigScript.Proofs.Source.Lines

/-! # Written values compile to themselves

The text of some values, one a line, compiles without definitions to these values and with nothing
to report. The words that start other statements are no values at the start of a line. -/

namespace ConfigScript

namespace Parser

open Scan Text Node

variable {σ : Type} {resolve : Resolver σ} {root : List Node} {s : ParserState}
  {text rest : List Char} {operators : OperatorTable}

/-- The words that start statements other than values. -/
def statementWords : List String := ["macro", "fn", "operator", "keyword", "undef", "use"]

/-- A node whose text reads back as a value at the start of a line. -/
structure Readable (n : Node) : Prop where
  keyed : n.Keyed
  ungrouped : n.Ungrouped
  word : Template.wordOf n ∉ statementWords

/-! ## Lines -/

/-- The characters of values, one a line. -/
def lineChars (ns : List Node) : List Char := List.intercalate ['\n'] (ns.map chars)

/-- What stands after a value: the lines of the further ones, if there are any. -/
def furtherLines : List Node → List Char
  | [] => []
  | n :: ns => '\n' :: lineChars (n :: ns)

theorem lineChars_cons (n : Node) (ns : List Node) :
    lineChars (n :: ns) = n.chars ++ furtherLines ns := by
  cases ns with
  | nil => simp [lineChars, furtherLines]
  | cons m ns => simp [lineChars, furtherLines]

theorem follow_furtherLines (ns : List Node) : Follow false (furtherLines ns) := by
  cases ns with
  | nil => exact follow_nil false
  | cons n ns => exact follow_lineBreak _

/-! ## Statements -/

theorem endStatement_last (hq : Quiet root s operators) (hr : s.tokenizer.Rests []) :
    Yields endStatement s fun _ t => Quiet root t operators ∧ t.tokenizer.Rests [] := by
  refine Yields.discard_hold hq (hr.poised .unexpected) (lexes_end _) (by simp)
    fun start t hqt ht => ?_
  exact ⟨hqt, ht.toRests⟩

theorem endStatement_back {ns : List Node} (hq : Quiet root s)
    (hr : s.tokenizer.Rests (furtherLines ns)) :
    Yields endStatement s fun _ t =>
      Quiet root t ∧ t.tokenizer.Poised .plainWord (lineChars ns) := by
  cases ns with
  | nil =>
    exact (endStatement_last hq hr).mono fun _ t ht => ⟨ht.1, ht.2.poised .plainWord⟩
  | cons n ns =>
    refine Yields.discard_hold hq (hr.poised .unexpected) (lexes_sign rfl _) (by simp)
      fun start t hqt ht => ?_
    have hstart := starts_chars n (follow_furtherLines ns).delimited
    rw [← lineChars_cons] at hstart
    refine Yields.look .plainWord hqt (ht.toRests.poised .unexpected) hstart (by decide)
      fun kind start' u hk hback => ?_
    have hcomma : kind ≠ .comma := by
      rcases hk with rfl | hk
      · decide
      · rintro rfl
        exact absurd hk (by decide)
    refine Yields.of_ite (fun _ => ?_) fun h => absurd hcomma (by simpa using h)
    exact Yields.bind hback fun _ v hv => hv

theorem Quiet.push (hq : Quiet root s operators) (m : Node) :
    Quiet (root ++ [m]) { s with root := s.root ++ [m] } operators :=
  ⟨hq.visible, hq.template, hq.reports, hq.queued, hq.exhausted, by rw [hq.root]⟩

theorem pushValue_last (hq : Quiet root s operators) (hr : s.tokenizer.Rests []) (m : Node) :
    Yields (pushValue m) s fun _ t =>
      Quiet (root ++ [m]) t operators ∧ t.tokenizer.Rests [] :=
  Yields.modify_bind (Yields.bind (endStatement_last (hq.push m) hr) fun _ _ ht => ht)

theorem pushValue_back {ns : List Node} (hq : Quiet root s)
    (hr : s.tokenizer.Rests (furtherLines ns)) (m : Node) :
    Yields (pushValue m) s fun _ t =>
      Quiet (root ++ [m]) t ∧ t.tokenizer.Poised .plainWord (lineChars ns) :=
  Yields.modify_bind (Yields.bind (endStatement_back (hq.push m) hr) fun _ _ ht => ht)

theorem rewind_first {word : String} {kind : TokenKind} {literal : Option String}
    {after : List Char} {start : Nat} (hf : First word text kind literal after) (hq : Quiet root s)
    (hs : s.tokenizer.Holds text ⟨kind, start, literal⟩ after) :
    Yields (rewind (Token.isSimpleLiteral ⟨kind, start, literal⟩)) s fun _ t =>
      Quiet root t ∧ t.tokenizer.Poised .value text ∧ t.tokenizer.committed.rest = text := by
  have hreplay : Lexes .value text kind literal after →
      Yields (rewind false) s fun _ t =>
        Quiet root t ∧ t.tokenizer.Poised .value text ∧ t.tokenizer.committed.rest = text :=
    fun hl => ⟨hq.setTokenizer hq.queued, hs.replay hl, hs.since.committed⟩
  cases hf with
  | literal holdsText literal_eq quoted =>
    subst literal_eq
    by_cases hk : kind = .quoted
    · subst hk
      exact hreplay (quoted rfl .value (by decide))
    · have hsimple : Token.isSimpleLiteral ⟨kind, start, some word⟩ = true := by
        simp [Token.isSimpleLiteral, Token.isLiteral, hk]
      rw [hsimple]
      have hfresh := hs.since.reread
      exact ⟨hq.setTokenizer hq.queued, hfresh.toRests.poised .value, hfresh.since.committed⟩
  | opening opens literal_eq lexes =>
    subst literal_eq
    exact hreplay (lexes .value (by decide))

theorem valueStatement_back {n : Node} {ns : List Node} (hn : Readable n) {kind : TokenKind}
    {literal : Option String} {after : List Char} {start : Nat}
    (hf : First (Template.wordOf n) (lineChars (n :: ns)) kind literal after) (hq : Quiet root s)
    (hs : s.tokenizer.Holds (lineChars (n :: ns)) ⟨kind, start, literal⟩ after) :
    Yields (valueStatement ⟨kind, start, literal⟩) s fun _ t =>
      ∃ m, m.withoutInfo = n.withoutInfo ∧ Quiet (root ++ [m]) t
        ∧ t.tokenizer.Poised .plainWord (lineChars ns) := by
  refine Yields.bind (rewind_first hf hq hs) fun _ t ht => ?_
  obtain ⟨hqt, hpt, hcommitted⟩ := ht
  rw [lineChars_cons] at hpt hcommitted
  have hlen : n.chars.length < t.tokenizer.committed.rest.length + 2 := by
    rw [hcommitted, List.length_append]
    omega
  have htop : Yields topCollection t fun v u =>
      Collected n (n.chars ++ furtherLines ns) (furtherLines ns) v u ∧ Quiet root u :=
    Yields.get_bind (collection_back hn.keyed hn.ungrouped hlen false root _ t hqt hpt
      fun _ => follow_furtherLines ns)
  refine Yields.bind htop fun v u hu => ?_
  obtain ⟨hv, hqu⟩ := hu
  cases v with
  | some m => exact (pushValue_back hqu hv.2 m).mono fun _ w hw => ⟨m, hv.1, hw⟩
  | none =>
    obtain ⟨hprim, hfresh⟩ := hv
    obtain ⟨word, i, rfl⟩ := exists_primitive hprim
    refine Yields.next_primitive rfl rfl hqu hfresh.toRests (follow_furtherLines ns).delimited
      fun kind start w hqw hw => ?_
    refine Yields.of_ite (fun _ => ?_) fun h => absurd rfl h
    refine (pushValue_back hqw hw _).mono fun _ x hx => ⟨_, ?_, hx⟩
    exact withoutInfo_placedAt (.value word) start

theorem statementWord_not_mem {word : String} (hw : word ∉ statementWords) {kind : TokenKind}
    {literal : Option String} {after : List Char} (hf : First word text kind literal after)
    (start : Nat) : Token.statementWord ⟨kind, start, literal⟩ ∉ statementWords := by
  unfold Token.statementWord
  split
  · cases hf with
    | literal _ literal_eq =>
      subst literal_eq
      exact hw
    | opening _ literal_eq =>
      subst literal_eq
      exact (by decide : "" ∉ statementWords)
  · decide

/-- What a statement is, by its first token. -/
def statementFrom (token : Token) : Parser Statement := do
  if token.kind = .endOfFile then return .endOfFile
  match token.statementWord with
  | "macro" => macroStatement false token.start
  | "fn" => macroStatement true token.start
  | "operator" => operatorStatement false token.start
  | "keyword" => operatorStatement true token.start
  | "undef" => return ← undefStatement token.start
  | "use" => return ← useStatement token.start
  | _ => valueStatement token
  return .complete

theorem statement_eq :
    statement = discard >>= fun _ => next true .plainWord >>= statementFrom := rfl

/-- A statement that starts with none of the words is a value. -/
theorem statementFrom_value {token : Token} (hend : token.kind ≠ .endOfFile)
    (hword : token.statementWord ∉ statementWords) :
    statementFrom token = valueStatement token >>= fun _ => pure .complete := by
  unfold statementFrom
  rw [if_neg hend]
  split
  · exact absurd (by simp [statementWords, *]) hword
  · exact absurd (by simp [statementWords, *]) hword
  · exact absurd (by simp [statementWords, *]) hword
  · exact absurd (by simp [statementWords, *]) hword
  · exact absurd (by simp [statementWords, *]) hword
  · exact absurd (by simp [statementWords, *]) hword
  · rfl

theorem statement_back {n : Node} {ns : List Node} (hn : Readable n) (hq : Quiet root s)
    (hp : s.tokenizer.Poised .plainWord (lineChars (n :: ns))) :
    Yields statement s fun r t => r = .complete
      ∧ ∃ m, m.withoutInfo = n.withoutInfo ∧ Quiet (root ++ [m]) t
        ∧ t.tokenizer.Poised .plainWord (lineChars ns) := by
  have hstart := starts_chars n (follow_furtherLines ns).delimited
  rw [← lineChars_cons] at hstart
  obtain ⟨kind, literal, after, hl, hf⟩ := hstart.lexes .plainWord rfl rfl
  rw [statement_eq]
  refine Yields.discard_hold hq hp hl (fun _ => hf.kind_ne rfl rfl) fun start t hqt ht => ?_
  rw [statementFrom_value (hf.kind_ne rfl rfl) (statementWord_not_mem hn.word hf start)]
  exact Yields.bind (valueStatement_back hn hf hqt ht) fun _ _ hu => ⟨rfl, hu⟩

theorem turn_of_endOfFile (h : (statement.run s).1 = .endOfFile) (i : σ) :
    turn resolve s i = (.ended, (statement.run s).2, i) := by
  unfold turn
  generalize statement.run s = read at h ⊢
  obtain ⟨r, t⟩ := read
  cases h
  rfl

theorem turn_of_complete (h : (statement.run s).1 = .complete) (i : σ) :
    turn resolve s i = (.goesOn, (statement.run s).2, i) := by
  unfold turn
  generalize statement.run s = read at h ⊢
  obtain ⟨r, t⟩ := read
  cases h
  rfl

theorem statements_single (h : (statement.run s).1 = .complete)
    (hlast : (statement.run (statement.run s).2).1 = .endOfFile) (n : Nat) (i : σ) :
    statements resolve (n + 2) s i = (true, (statement.run (statement.run s).2).2, i) := by
  rw [statements, turn_of_complete h]
  change statements resolve (n + 1) _ i = _
  rw [statements, turn_of_endOfFile hlast]

theorem statement_last (hq : Quiet root s operators)
    (hp : s.tokenizer.Poised .plainWord [] operators) :
    Yields statement s fun r t => r = .endOfFile ∧ Quiet root t operators := by
  refine Yields.discard_hold hq hp (lexes_end _) (by simp) fun start t hqt _ => ?_
  exact Yields.of_ite (fun _ => ⟨rfl, hqt⟩) fun h => absurd rfl h

theorem statements_back (resolve : Resolver σ) {ns : List Node} (hns : ∀ n ∈ ns, Readable n)
    {k : Nat}
    (hk : ns.length < k) (hq : Quiet root s)
    (hp : s.tokenizer.Poised .plainWord (lineChars ns)) (i : σ) :
    ∃ t ms, statements resolve k s i = (true, t, i) ∧ ms.map withoutInfo = ns.map withoutInfo
      ∧ Quiet (root ++ ms) t := by
  induction k generalizing ns root s with
  | zero => omega
  | succ k ih =>
    cases ns with
    | nil =>
      obtain ⟨hr, hqt⟩ := statement_last hq hp
      refine ⟨(statement.run s).2, [], ?_, rfl, by rwa [List.append_nil]⟩
      rw [statements, turn_of_endOfFile hr]
    | cons n ns =>
      obtain ⟨hr, m, hm, hqt, hpt⟩ := statement_back (hns n List.mem_cons_self) hq hp
      obtain ⟨t, ms, hrun, hms, hqms⟩ :=
        ih (fun x hx => hns x (List.mem_cons_of_mem n hx)) (by simpa using hk) hqt hpt
      refine ⟨t, m :: ms, ?_, by simp [hm, hms], by simpa using hqms⟩
      rw [statements, turn_of_complete hr]
      exact hrun

/-! ## The source of written values -/

theorem chars_ofText {text : String} (h : '\r' ∉ text.toList) :
    (Source.ofText text).chars = text.toList :=
  (Source.chars_ofText_eq_feeds text).trans (Source.feeds_of_not_mem h)

theorem not_mem_lineChars (ns : List Node) : '\r' ∉ lineChars ns := by
  induction ns with
  | nil => simp [lineChars]
  | cons n ns ih =>
    rw [lineChars_cons, List.mem_append]
    rintro (h | h)
    · exact (inLine_chars n h).2 rfl
    · cases ns with
      | nil => simp [furtherLines] at h
      | cons m ns =>
        rcases List.mem_cons.mp h with h | h
        · exact absurd h (by decide)
        · exact ih h

theorem chars_ofText_textOfRoot (ns : List Node) :
    (Source.ofText (textOfRoot ns)).chars = lineChars ns := by
  have htext : (textOfRoot ns).toList = lineChars ns := by
    have hchars : (fun n : Node => n.text.toList) = chars := rfl
    simp [textOfRoot, lineChars, String.toList_intercalate, Function.comp_def, hchars]
  rw [chars_ofText (by rw [htext]; exact not_mem_lineChars ns), htext]

theorem length_le_furtherLines (ns : List Node) : ns.length ≤ (furtherLines ns).length := by
  induction ns with
  | nil => simp
  | cons n ns ih =>
    rw [furtherLines, lineChars_cons, List.length_cons, List.length_cons, List.length_append]
    omega

theorem start_quiet (config : Config) (source : Source) :
    Quiet [] (start config { operators } source) operators :=
  ⟨rfl, rfl, rfl, rfl, rfl, rfl⟩

/-- The text of values compiles to these values, and nothing is reported. They agree in everything
but the information on nodes, the order of properties included, and so are the same values. -/
theorem compile_textOfRoot (config : Config) (resolve : Resolver σ) (imports : σ)
    (ns : List Node) (hns : ∀ n ∈ ns, Readable n) :
    (compile config resolve {} (Source.ofText (textOfRoot ns)) imports).1.reports = []
      ∧ (compile config resolve {} (Source.ofText (textOfRoot ns)) imports).1.root.map withoutInfo
        = ns.map withoutInfo
      ∧ sameItems (compile config resolve {} (Source.ofText (textOfRoot ns)) imports).1.root ns
        = true := by
  have hchars := chars_ofText_textOfRoot ns
  have hlen : ns.length < (Source.ofText (textOfRoot ns)).length + 2 := by
    have hle := length_le_furtherLines ns
    rw [Source.length, hchars]
    cases ns with
    | nil => simp
    | cons n ns =>
      simp only [furtherLines, List.length_cons] at hle ⊢
      omega
  have hp : (start config {} (Source.ofText (textOfRoot ns))).tokenizer.Poised .plainWord
      (lineChars ns) := .unread ⟨rfl, hchars⟩
  obtain ⟨t, ms, hrun, hms, hq⟩ :=
    statements_back resolve hns hlen (start_quiet config _) hp imports
  rw [compile_eq hrun]
  simp only [hq.exhausted, Bool.not_false, Bool.and_self, if_true]
  have hkeyed : KeyedItems ns := keyedItems_iff.mpr fun n hn => (hns n hn).keyed
  rw [hq.root, List.nil_append]
  refine ⟨hq.reports, hms, sameItems_of_withoutInfo ms ns hkeyed ?_⟩
  rw [withoutInfoItems_eq, withoutInfoItems_eq, hms]

/-- A name and a key that need quotes, a term that looks like a number, and a value that would
start a comment. -/
theorem compile_textOfRoot_quotes :
    let resolve : Resolver Unit := fun _ i => (.crashed, i)
    let ns : List Node :=
      [.object "a b"
          [("[k]", .list "use" true [.primitive "-1.5e3" {}] {}), ("=", .primitive "" {})] {},
        .primitive "// \n" {}]
    (∀ n ∈ ns, Readable n)
      ∧ (compile {} resolve {} (Source.ofText (textOfRoot ns)) ()).1.reports = []
      ∧ (compile {} resolve {} (Source.ofText (textOfRoot ns)) ()).1.root.map withoutInfo = ns
      ∧ sameItems (compile {} resolve {} (Source.ofText (textOfRoot ns)) ()).1.root ns = true := by
  intro resolve ns
  have hns : ∀ n ∈ ns, Readable n := by
    intro n hn
    simp only [ns, List.mem_cons, List.not_mem_nil, or_false] at hn
    rcases hn with rfl | rfl
    · refine ⟨?_, ?_, by decide⟩
      · simp [Keyed, KeyedProperties, KeyedItems, Properties.keys]
      · simp [Ungrouped, UngroupedProperties, UngroupedItems]
    · exact ⟨trivial, trivial, by decide⟩
  obtain ⟨hreports, hroot, hsame⟩ := compile_textOfRoot {} resolve () ns hns
  exact ⟨hns, hreports, hroot.trans (by rfl), hsame⟩

end Parser

end ConfigScript
