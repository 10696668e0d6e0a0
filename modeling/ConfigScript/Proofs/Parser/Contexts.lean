import ConfigScript.Proofs.Parser.Looking

/-! # A value in an object and in a list

A line that is the value of a property, closed by the brace of the object, is also the element of a
list. The list looks at the first token of the value before it reads it, with structure alone
expected; a colon is then taken for itself, where a value may start with one. -/

namespace ConfigScript

/-- What a turn hands on, to the next one or as the result. -/
def Turn.carried {α : Type} : Turn α → α
  | .again a => a
  | .done a => a

namespace Parser

open Scan Node

variable {α : Type} {inner inner' : Parser (Option Node)} {policy : UnicodePolicy}
  {s u : ParserState}
  {mode : ReadMode} {text rest cs ds : List Char} {kind : TokenKind} {literal : Option String}
  {ps qs : List (String × Node)} {m n : Node}

/-! ## Up to the value -/

/-- Nothing has been reported, no token is to be handed out again, and this much of the text is
left. -/
structure Stands (policy : UnicodePolicy) (text : List Char) (s : ParserState) : Prop where
  quiet : Quiet [] s
  recovering : s.recovering = false
  rests : s.tokenizer.Rests text
  policy_eq : s.tokenizer.policy = policy
  reported : s.tokenizer.reported = []

theorem Stands.discard (h : Stands policy text s) :
    Stands policy text { s with tokenizer := s.tokenizer.discard } :=
  ⟨h.quiet.discard, h.recovering, ⟨h.rests.ahead, h.rests.rest⟩, h.policy_eq, h.reported⟩

theorem Stands.next (h : Stands policy text s) (hl : Lexes mode text kind literal rest)
    (hk : kind ≠ .lineBreak) (skipBreaks : Bool) :
    Yields (Parser.next skipBreaks mode) s fun a t =>
      (∃ start, a = ⟨kind, start, literal⟩) ∧ Stands policy rest t := by
  obtain ⟨⟨start, htoken⟩, hafter, hreports⟩ := hl s.tokenizer.policy s.tokenizer.cursor.pos
  rw [← h.rests.rest] at htoken hafter hreports
  have hread := Tokenizer.next_read skipBreaks h.rests.ahead hreports fun _ => by rwa [htoken]
  have hsilent := congrArg (·.2.reports) hread
  refine ((next_extends skipBreaks mode s).and
    (next_quiet h.quiet (hsilent.trans h.quiet.queued))).mono fun a t ht => ?_
  obtain ⟨hext, rfl, hq, ht⟩ := ht
  rw [hread] at ht ⊢
  refine ⟨⟨start, htoken⟩, hq, hext.recovering.trans h.recovering, ?_, ?_, ?_⟩
  all_goals rw [ht]
  · exact ⟨h.rests.ahead, hafter⟩
  · exact h.policy_eq
  · exact h.reported

theorem Yields.bind_iff {β : Type} {p : Parser α} {f : α → Parser β}
    {Q : β → ParserState → Prop} :
    Yields (p >>= f) s Q ↔ Yields p s fun a t => Yields (f a) t Q := Iff.rfl

/-- Moreover no token is kept. -/
structure Unread (policy : UnicodePolicy) (text : List Char) (s : ParserState) : Prop
    extends Stands policy text s where
  taken : s.tokenizer.taken = []

theorem Stands.unread (h : Stands policy text s) :
    Unread policy text { s with tokenizer := s.tokenizer.discard } := ⟨h.discard, rfl⟩

theorem Unread.discard_eq (h : Unread policy text s) : s.tokenizer.discard = s.tokenizer := by
  rw [Tokenizer.discard, ← h.taken]

theorem Unread.back (h : Unread policy text s) {t : Tokenizer} (ht : s.tokenizer.StaysAt t) :
    Unread policy text { s with tokenizer := t.reread } := by
  rw [ht.reread_eq h.taken h.rests.ahead]
  exact ⟨⟨h.quiet.setTokenizer h.quiet.queued, h.recovering, ⟨h.rests.ahead, h.rests.rest⟩,
    h.policy_eq, h.reported⟩, h.taken⟩

/-- The first token of what was left has been handed out. -/
structure Looked (s : ParserState) (a : Token) (t : Tokenizer) : Prop where
  staysAt : s.tokenizer.StaysAt t
  ahead : t.ahead = []
  taken : t.taken = [(a, s.tokenizer.cursor)]

theorem Unread.look (h : Unread policy text s) {l : Lexeme} (skipBreaks : Bool)
    (hl : Scan.next policy mode {} s.tokenizer.cursor = l) (hr : l.reports = [])
    (hline : l.token.kind ≠ .lineBreak) :
    ∃ t, s.tokenizer.next skipBreaks mode s.visible.operators = (l.token, t)
      ∧ Looked s l.token t := by
  have hscan : Scan.next s.tokenizer.policy mode s.visible.operators s.tokenizer.cursor = l := by
    rw [h.policy_eq, h.quiet.visible]
    exact hl
  have hread := Tokenizer.next_read skipBreaks h.rests.ahead (hscan ▸ hr) fun _ => hscan ▸ hline
  have hstays := Tokenizer.read_staysAt skipBreaks h.rests.ahead (hscan ▸ hr)
    fun _ => hscan ▸ hline
  rw [hread] at hstays
  rw [hscan] at hread hstays
  refine ⟨_, hread, hstays, h.rests.ahead, ?_⟩
  rw [h.taken]
  rfl

theorem Unread.alongside (h : Scan.Twins cs ds) (hs : Unread policy (' ' :: cs) s)
    (hu : Unread policy ds u) : Alongside s u := by
  refine ⟨hs.quiet, hu.quiet, hs.recovering, ?_, ?_, ?_, ?_, ⟨hs.quiet.queued, hs.reported⟩,
    ⟨hu.quiet.queued, hu.reported⟩⟩
  · rw [hs.policy_eq, hu.policy_eq]
  · rw [hs.rests.rest, hu.rests.rest]
    exact .blank h
  · rw [hs.taken, hu.taken]
    exact .nil
  · rw [hs.rests.ahead, hu.rests.ahead]
    exact .nil

/-- The turns of a loop behind one of them. -/
def furtherTurns (step : α → Parser (Turn α)) (n : Nat) : Turn α → Parser α
  | .again a => turns step n a
  | .done a => pure a

theorem turns_succ (step : α → Parser (Turn α)) (n : Nat) (a : α) :
    turns step (n + 1) a = step a >>= furtherTurns step n := by
  refine congrArg (step a >>= ·) (funext fun r => ?_)
  cases r <;> rfl

theorem Yields.of_loop_succ {step : α → Parser (Turn α)} {a : α} {Q : α → ParserState → Prop}
    (h : ∀ n, Yields (step a >>= furtherTurns step n) s Q) : Yields (loop step a) s Q := by
  refine Yields.get_bind ?_
  rw [turns_succ]
  exact h _

theorem Yields.of_objectEntry {Q : Turn (List (String × Node)) → ParserState → Prop}
    (hs : Stands policy text s) (hkey : Lexes .key text kind literal (':' :: rest))
    (hkind : kind.isSign = false) (hliteral : literal.isSome = true)
    (h : ∀ i t, Stands policy rest t → Yields (behindColon inner ⟨kind, i, literal⟩ ps) t Q) :
    Yields (objectEntry inner ps) s Q := by
  have hcolon : Lexes .unexpected (':' :: rest) .colon none rest := lexes_sign rfl _
  have hline : kind ≠ .lineBreak := TokenKind.ne_of_isSign hkind rfl
  rw [objectEntry_eq]
  refine Yields.bind (hs.next hkey hline _) fun a t ht => ?_
  obtain ⟨⟨i, rfl⟩, ht⟩ := ht
  rw [entryTurn_word rfl hkind, objectKey,
    if_pos (by exact hliteral), objectProperty_eq]
  refine Yields.modify_bind (Yields.bind (ht.discard.next hcolon (by decide) _) fun a v hv => ?_)
  obtain ⟨⟨j, rfl⟩, hv⟩ := hv
  exact h i v hv

theorem Yields.of_object {Q : Option Node → ParserState → Prop}
    (hs : Stands policy ('{' :: text) s) (hkey : Lexes .key text kind literal (':' :: rest))
    (hkind : kind.isSign = false) (hliteral : literal.isSome = true)
    (h : ∀ depth n i j t, Stands policy rest t →
      Yields (behindColon (collection depth false) ⟨kind, j, literal⟩ [] >>=
          furtherTurns (objectEntry (collection depth false)) n) t
        fun ps v => Q (some ((Node.object "" ps {}).placedAt i)) v) :
    Yields topCollection s Q := by
  have hbrace : Lexes .value ('{' :: text) .leftBrace none text := lexes_sign rfl _
  rw [Yields, topCollection_run, collection_succ]
  refine Yields.modify_bind (Yields.bind (hs.discard.next hbrace (by decide) _) fun a t ht => ?_)
  obtain ⟨⟨i, rfl⟩, ht⟩ := ht
  refine Yields.bind (P := fun m v => Q (some m) v) ?_ fun _ _ hv => hv
  refine Yields.bind (Yields.of_loop_succ fun n => ?_) (P := fun ps v =>
    Q (some ((Node.object "" ps {}).placedAt i)) v) fun _ _ hv => hv
  refine Yields.bind_iff.mpr (Yields.of_objectEntry ht hkey hkind hliteral fun j v hv => ?_)
  exact Yields.bind_iff.mp (h _ n i j v hv)

theorem Yields.of_list {Q : Option Node → ParserState → Prop}
    (hs : Stands policy ('[' :: text) s)
    (h : ∀ depth n i t, Stands policy text t →
      Yields (listEntry (collection depth false) [] >>=
          furtherTurns (listEntry (collection depth false)) n) t
        fun xs v => Q (some ((Node.list "" false xs {}).placedAt i)) v) :
    Yields topCollection s Q := by
  have hbracket : Lexes .value ('[' :: text) .leftBracket none text := lexes_sign rfl _
  rw [Yields, topCollection_run, collection_succ]
  refine Yields.modify_bind (Yields.bind (hs.discard.next hbracket (by decide) _) fun a t ht => ?_)
  obtain ⟨⟨i, rfl⟩, ht⟩ := ht
  refine Yields.bind (P := fun m v => Q (some m) v) ?_ fun _ _ hv => hv
  refine Yields.bind (Yields.of_loop_succ fun n => ?_) (P := fun xs v =>
    Q (some ((Node.list "" false xs {}).placedAt i)) v) fun _ _ hv => hv
  exact h _ n i t ht

/-! ## Objects with a further property -/

theorem resume_carried {mode : ReadMode} {closer : TokenKind} (a : α) :
    Yields (resume inner mode closer a) s fun r _ => r.carried = a :=
  Yields.bind_run fun _ _ _ => Yields.of_ite (fun _ => rfl) fun _ => rfl

theorem objectSeparator_carried (ps : List (String × Node)) :
    Yields (objectSeparator inner ps) s fun r _ => r.carried = ps := by
  rw [objectSeparator_eq]
  refine Yields.bind_run fun a t _ => Yields.of_ite (fun _ => ?_) fun _ => ?_
  · refine Yields.bind_run fun _ _ _ => Yields.bind_run fun _ _ _ => ?_
    exact Yields.of_ite (fun _ => rfl) fun _ => rfl
  · refine Yields.of_ite (fun _ => rfl) fun _ => Yields.of_ite (fun _ => rfl) fun _ => ?_
    exact Yields.of_ite (fun _ => rfl) fun _ => Yields.bind_run fun _ _ _ => resume_carried ps

theorem length_le_put (key : String) (m : Node) (ps : List (String × Node)) :
    ps.length ≤ (Properties.put key m ps).length := by
  induction ps with
  | nil => exact Nat.zero_le _
  | cons p ps ih =>
    rw [Properties.put]
    split
    · exact Nat.le_refl _
    · exact Nat.succ_le_succ ih

theorem objectKey_carried (ps : List (String × Node)) (a : Token) :
    Yields (objectKey inner ps a) s fun r _ => ps.length ≤ r.carried.length := by
  have hresume {mode : ReadMode} {t : ParserState} :
      Yields (resume inner mode .rightBrace ps) t fun r _ => ps.length ≤ r.carried.length :=
    (resume_carried ps).mono fun r _ hr => by rw [hr]
  have hcolon {t : ParserState} :
      Yields (behindColon inner a ps) t fun r _ => ps.length ≤ r.carried.length := by
    cases h : Properties.contains a.text ps with
    | true =>
      unfold behindColon
      simp only [h]
      refine Yields.bind_run fun _ _ _ => Yields.bind_run fun _ _ _ => ?_
      refine Yields.bind_run fun _ _ _ => ?_
      exact (objectSeparator_carried ps).mono fun r _ hr => by rw [hr]
    | false =>
      rw [behindColon_eq h]
      refine Yields.bind_run fun m _ _ => (objectSeparator_carried _).mono fun r _ hr => ?_
      rw [hr]
      exact length_le_put a.text m ps
  refine Yields.of_ite (fun _ => ?_) fun _ => Yields.bind_run fun _ _ _ => hresume
  rw [objectProperty_eq]
  refine Yields.modify_bind (Yields.bind_run fun _ _ _ => ?_)
  refine Yields.of_ite (fun _ => ?_) fun _ => hcolon
  exact Yields.bind_run fun _ _ _ => Yields.bind_run fun _ _ _ => hresume

theorem objectEntry_carried (ps : List (String × Node)) :
    Yields (objectEntry inner ps) s fun r _ => ps.length ≤ r.carried.length := by
  rw [objectEntry_eq]
  refine Yields.bind_run fun a t _ => Yields.of_ite (fun _ => Nat.le_refl _) fun _ => ?_
  refine Yields.of_ite (fun _ => Nat.le_refl _) fun _ => ?_
  exact Yields.of_ite (fun _ => Nat.le_refl _) fun _ => objectKey_carried ps a

theorem objectKey_grows (hi : Moves Extends inner) (hs : s.recovering = false) (a : Token) :
    Yields (objectKey inner ps a) s fun r t =>
      t.reports = [] → t.exhausted = true ∨ ps.length < r.carried.length := by
  have hloud {p : Parser (Turn (List (String × Node)))} {t : ParserState}
      (hp : Fails (fun s => s.recovering = false) p) (ht : t.recovering = false) :
      Yields p t fun r v => v.reports = [] → v.exhausted = true ∨ ps.length < r.carried.length :=
    (hp.loud t ht).mono fun _ _ hv hr => .inl (hv hr)
  cases hl : a.isLiteral with
  | false => exact hloud (objectKey_fails hi ps hl) hs
  | true =>
    rw [objectKey, if_pos hl, objectProperty_eq]
    refine Yields.modify_bind (Yields.bind (next_extends true .unexpected _) fun b t ht => ?_)
    have hrec : t.recovering = false := ht.recovering.trans hs
    refine Yields.of_ite (fun _ => hloud (missingColon_fails hi ps) hrec) fun _ => ?_
    cases hc : Properties.contains a.text ps with
    | true => exact hloud (behindColon_duplicate hi hc) hrec
    | false =>
      have hnot : a.text ∉ Properties.keys ps := fun hmem => by
        simp [Properties.contains_iff.mpr hmem] at hc
      rw [behindColon_eq hc]
      refine Yields.bind_run fun m v _ => (objectSeparator_carried _).mono fun r w hr _ => .inr ?_
      rw [hr, Properties.put_append hnot, List.length_append]
      exact Nat.lt_succ_self _

theorem furtherTurns_grow (hi : Moves Extends inner) (N : Nat) {ps : List (String × Node)}
    {r : Turn (List (String × Node))}
    (hr : s.reports = [] → s.exhausted = true ∨ ps.length < r.carried.length) :
    Yields (furtherTurns (objectEntry inner) N r) s fun qs t =>
      t.reports = [] → t.exhausted = true ∨ ps.length < qs.length := by
  cases r with
  | done qs => exact hr
  | again qs =>
    have hkeep : Yields (turns (objectEntry inner) N qs) s fun rs _ => qs.length ≤ rs.length := by
      refine Yields.of_turns_keep
        (I := fun (rs : List (String × Node)) _ => qs.length ≤ rs.length) (fun rs t ht => ?_)
        (fun _ _ => id) (Nat.le_refl _)
      refine (objectEntry_carried rs).mono fun r _ hr => ?_
      cases r with
      | again _ => exact ht.trans hr
      | done _ => exact ht.trans hr
    have hmoves : Moves Extends (turns (objectEntry inner) N qs) :=
      Moves.turns exhaust_extends (objectEntry_extends hi) N qs
    refine ((hmoves s).and hkeep).mono fun rs t ht hreports => ?_
    refine (hr (List.prefix_nil.mp (hreports ▸ ht.1.reports))).imp ht.1.exhausted fun hlt => ?_
    exact Nat.lt_of_lt_of_le hlt ht.2

/-- Behind the comma after a property, the brace that closes the object comes next, or there are
further properties. -/
theorem objectTurns_grow (hi : Moves Extends inner) (hs : s.recovering = false) (N : Nat)
    (ps : List (String × Node)) :
    Yields (turns (objectEntry inner) N ps) s fun qs t => t.reports = [] →
      t.exhausted = true ∨ ps.length < qs.length
        ∨ (s.tokenizer.next true .key s.visible.operators).1.kind = .rightBrace
          ∧ (s.tokenizer.next true .key s.visible.operators).2.reports = []
          ∧ qs = ps
          ∧ t.tokenizer = (s.tokenizer.next true .key s.visible.operators).2.takeReports.2 := by
  cases N with
  | zero => exact fun _ => .inl rfl
  | succ N =>
    rw [turns_succ, objectEntry_eq]
    refine Yields.bind_iff.mpr (Yields.bind ((next_handed _ _ _).and
      ((next_extends _ _ _).and (next_reported hs _ _))) fun a t ht => ?_)
    obtain ⟨⟨rfl, htokenizer⟩, hext, hsilent⟩ := ht
    have hrec : t.recovering = false := hext.recovering.trans hs
    by_cases hbrace : (s.tokenizer.next true .key s.visible.operators).1.kind = .rightBrace
    · rw [entryTurn_closer rfl hbrace]
      exact fun hr => .inr (.inr ⟨hbrace, hsilent hr, rfl, htokenizer⟩)
    · have hloud {p : Parser (Turn (List (String × Node)))}
          (hp : Fails (fun s => s.recovering = false) p) : Yields p t fun r v =>
            v.reports = [] → v.exhausted = true ∨ ps.length < r.carried.length :=
        (hp.loud t hrec).mono fun _ _ hv hr => .inl (hv hr)
      have hentry : Yields (entryTurn "Unterminated object" .rightBrace ps (objectKey inner ps)
          (s.tokenizer.next true .key s.visible.operators).1) t fun r v =>
            v.reports = [] → v.exhausted = true ∨ ps.length < r.carried.length := by
        refine Yields.of_ite (fun _ => hloud (unterminated_fails _ _)) fun _ => ?_
        refine Yields.of_ite (fun h => absurd h hbrace) fun _ => ?_
        exact Yields.of_ite (fun _ => hloud (redundant_fails _)) fun _ => objectKey_grows hi hrec _
      refine hentry.mono fun r v hr => (furtherTurns_grow hi N hr).mono fun qs w hw hreports => ?_
      exact (hw hreports).imp id .inl

/-! ## Behind the value -/

/-- Of a single property at the end of the object, the list holds the value, if that is allowed. -/
def SingleTwins (allowed : Node → Prop) (ps : List (String × Node)) (xs : List Node)
    (t v : ParserState) : Prop :=
  ∀ key m, ps = [(key, m)] → allowed m → t.tokenizer.here.rest = [] →
    ∃ n, xs = [n] ∧ m.Twins n ∧ v.tokenizer.Over ∧ v.reports = []

variable {allowed : Node → Prop} {key : String}

theorem furtherTurns_extends {step : α → Parser (Turn α)} (h : ∀ a, Moves Extends (step a))
    (N : Nat)
    (r : Turn α) : Moves Extends (furtherTurns step N r) := by
  cases r with
  | again a => exact Moves.turns exhaust_extends h N a
  | done a => exact Moves.pure a

theorem comma_mirrors (hi : Moves Extends inner) (hi' : Moves Extends inner') (hn : m.Twins n)
    (N N' : Nat) :
    Mirrors Alongside (SingleTwins allowed) (turns (objectEntry inner) N [(key, m)])
      (turns (listEntry inner') N' [n]) := by
  have hleft := Moves.turns exhaust_extends (objectEntry_extends hi) N [(key, m)]
  have hright := Moves.turns exhaust_extends (listEntry_extends hi') N' [n]
  cases N' with
  | zero => exact .of_cut hleft hright fun _ => rfl
  | succ N' =>
    refine ⟨hleft, hright,
      fun s u h => (objectTurns_grow hi h.recovering N _).mono fun qs t ht => ?_⟩
    refine Yields.by_run fun xs v hrun hsm key' m' hqs _ hrest => ?_
    have hops : s.visible.operators = {} ∧ u.visible.operators = {} := by
      rw [h.quiet.visible, h.quiet'.visible]
      exact ⟨rfl, rfl⟩
    rw [hops.1] at ht
    rcases ht hsm.reports with hcut | hmore | ⟨hbrace, hsilent, rfl, htokenizer⟩
    · exact absurd (hsm.complete.symm.trans hcut) Bool.false_ne_true
    · exact absurd hmore (by simp [hqs])
    · obtain ⟨hkind, hover, hreports⟩ :=
        h.twins.closes hsilent hbrace (by rwa [htokenizer] at hrest)
      have hend : Yields (turns (listEntry inner') (N' + 1) [n]) u fun xs v =>
          xs = [n] ∧ v.tokenizer.Over ∧ v.reports = [] := by
        rw [turns_succ, listEntry_eq]
        refine Yields.bind_iff.mpr (Yields.modify_bind
          (Yields.bind (next_quiet h.quiet'.discard hreports) fun b w hw => ?_))
        obtain ⟨rfl, hq, hw⟩ := hw
        rw [entryTurn_closer rfl hkind]
        exact ⟨rfl, hw ▸ hover, hq.reports⟩
      obtain ⟨hxs, hv, hr⟩ := hend.of_run hrun
      obtain ⟨⟨-, rfl⟩, -⟩ := List.cons.inj hqs
      exact ⟨n, hxs, hn, hv, hr⟩

theorem closing_mirrors {breaks other : Parser (Turn (List (String × Node)))}
    {breaks' other' : Parser (Turn (List Node))} {unterminated unterminated' : String}
    (hi : Moves Extends inner) (hi' : Moves Extends inner') (hb : Moves Extends breaks)
    (hb' : Moves Extends breaks') (ho : Fails (fun s => s.recovering = false) other)
    (ho' : Moves Extends other') (hn : m.Twins n) (N N' : Nat) :
    Mirrors Alongside (SingleTwins allowed)
      (next false .unexpected >>= fun a =>
        separatorTurn unterminated .rightBrace [(key, m)] breaks other a >>=
          furtherTurns (objectEntry inner) N)
      (next false .unexpected >>= fun b =>
        separatorTurn unterminated' .rightBracket [n] breaks' other' b >>=
          furtherTurns (listEntry inner') N') := by
  have hleft := furtherTurns_extends (objectEntry_extends hi) N
  have hright (b : Token) : Moves Extends
      (separatorTurn unterminated' .rightBracket [n] breaks' other' b >>=
        furtherTurns (listEntry inner') N') :=
    (separatorTurn_extends hb' ho' b).bind (furtherTurns_extends (listEntry_extends hi') N')
  have hfails {a b : Token} (hline : a.kind ≠ .lineBreak) (hcomma : a.kind ≠ .comma)
      (hbrace : a.kind ≠ .rightBrace) : Mirrors Alongside (SingleTwins allowed)
        (separatorTurn unterminated .rightBrace [(key, m)] breaks other a >>=
          furtherTurns (objectEntry inner) N)
        (separatorTurn unterminated' .rightBracket [n] breaks' other' b >>=
          furtherTurns (listEntry inner') N') :=
    ((separatorTurn_fails ho hline hcomma hbrace).bind hleft).mirrors (hright b)
      fun _ _ h => h.recovering
  refine .next_bind (by decide) (fun a b hk _ => ?_) (fun a b hk _ _ hw => ?_)
    fun a b hk hk' _ _ => ?_
  · -- Of the tokens that both runs may take, only a comma goes on in silence.
    by_cases hline : a.kind = .lineBreak
    · exact .of_false ((separatorTurn_extends hb ho.moves a).bind hleft) (hright b)
        fun _ _ h => h.1 hline
    · by_cases hcomma : a.kind = .comma
      · rw [separatorTurn_comma hcomma, separatorTurn_comma (hk.trans hcomma), pure_bind, pure_bind]
        exact (comma_mirrors hi hi' hn N N').weaken fun _ _ h => h.2.1
      · by_cases hbrace : a.kind = .rightBrace
        · rw [separatorTurn_closer rfl hbrace, pure_bind]
          refine Mirrors.weaken (.of_left (D := fun t => t.tokenizer.here.rest ≠ []) (hright b)
            fun _ _ _ ht _ _ _ _ hrest => absurd hrest ht) fun t _ h hrest => ?_
          rcases h.2.2 hrest with he | he
          · exact absurd (hbrace.symm.trans he) (by decide)
          · exact absurd (hbrace.symm.trans he) (by decide)
        · exact (hfails hline hcomma hbrace).weaken fun _ _ h => h.2.1
  · refine (hfails ?_ ?_ ?_).weaken fun _ _ h => h.toAlongside
    · exact TokenKind.ne_of_isSign hw rfl
    · exact TokenKind.ne_of_isSign hw rfl
    · exact TokenKind.ne_of_isSign hw rfl
  · rw [separatorTurn_closer rfl hk, separatorTurn_closer rfl hk', pure_bind, pure_bind]
    refine .pure fun t v h key' m' hps _ _ => ?_
    obtain ⟨⟨-, rfl⟩, -⟩ := List.cons.inj hps
    exact ⟨n, rfl, hn, (h.twins.isOver h.ended).2, h.quiet'.reports⟩

theorem separators_mirrors (hi : Moves Extends inner) (hi' : Moves Extends inner')
    (hn : m.Twins n) (N N' : Nat) :
    Mirrors Alongside (SingleTwins allowed)
      (objectSeparator inner [(key, m)] >>= furtherTurns (objectEntry inner) N)
      (listSeparator inner' [n] >>= furtherTurns (listEntry inner') N') := by
  rw [objectSeparator_eq, listSeparator_eq, bind_assoc, bind_assoc]
  exact closing_mirrors hi hi' (passComma_extends _ (fun _ => false) _) (passComma_extends _ _ _)
    (objectSeparator_fails hi _) (listSeparator_fails hi' _).moves hn N N'

/-- What is done with the value of the only property so far. -/
def propertyEnd (inner : Parser (Option Node)) (key : String) (N : Nat) (found : Option Node) :
    Parser (List (String × Node)) := do
  let value ← match found with
    | some value => pure value
    | none => substitute
  furtherTurns (objectEntry inner) N (← objectSeparator inner [(key, value)])

/-- What is done with the first element. -/
def elementEnd (inner : Parser (Option Node)) (N : Nat) (found : Option Node) :
    Parser (List Node) := do
  furtherTurns (listEntry inner) N (← listSeparator inner found.toList)

theorem propertyEnd_extends (key : String) (hi : Moves Extends inner) (N : Nat)
    (found : Option Node) :
    Moves Extends (propertyEnd inner key N found) := by
  have hvalue (v : Node) : Moves Extends
      (objectSeparator inner [(key, v)] >>= furtherTurns (objectEntry inner) N) :=
    (objectSeparator_extends hi _).bind (furtherTurns_extends (objectEntry_extends hi) N)
  cases found with
  | none => exact substitute_extends.bind hvalue
  | some v => exact hvalue v

theorem elementEnd_extends (hi : Moves Extends inner) (N : Nat) (found : Option Node) :
    Moves Extends (elementEnd inner N found) :=
  (listSeparator_spent hi _).moves.bind (furtherTurns_extends (listEntry_extends hi) N)

theorem ends_mirrors (allowed : Node → Prop) (key : String)
    {A : ParserState → ParserState → Prop} {p q : Parser (Option Node)}
    (h : Mirrors A ValueTwins p q) (hi : Moves Extends inner) (hi' : Moves Extends inner')
    (N N' : Nat) :
    Mirrors A (SingleTwins allowed) (p >>= propertyEnd inner key N)
      (q >>= elementEnd inner' N') := by
  refine h.some_bind (propertyEnd_extends key hi N none) (fun m n => ?_) fun m found => ?_
  · refine .intro (propertyEnd_extends key hi N (some m)) (elementEnd_extends hi' N' (some n))
      fun hn => ?_
    exact separators_mirrors hi hi' hn N N'
  · refine Fails.mirrors ?_ (elementEnd_extends hi' N' found) fun _ _ => id
    exact (objectSeparator_spent hi _).bind (furtherTurns_extends (objectEntry_extends hi) N)

/-! ## The value -/

variable {depth depth' : Nat}

theorem noValue_loud (depth : Nat) (hs : Unread policy text s) {l : Lexeme}
    (hl : Scan.next policy .value {} s.tokenizer.cursor = l) (hr : l.reports = [])
    (hline : l.token.kind ≠ .lineBreak) (ho : isOpening l.token.kind = false)
    (hliteral : l.token.isLiteral = false) :
    Yields (collection (depth + 1) false >>= orLiteral) s fun _ t =>
      t.reports = [] → t.exhausted = true := by
  obtain ⟨t, hnext, hlooked⟩ := hs.look true hl hr hline
  have hqueued : t.reports = [] := hlooked.staysAt.reports.trans hs.quiet.queued
  have hback := collection_gives_back depth (by rwa [hs.discard_eq]) hqueued hliteral ho
  have hagain := hs.back hlooked.staysAt.replay
  have hl' : Scan.next policy .value {} t.replay.reread.cursor = l := by
    rw [hlooked.staysAt.replay.reread_eq hs.taken hs.rests.ahead]
    exact hl
  obtain ⟨u, hnext', hlooked'⟩ := hagain.look true hl' hr hline
  have hqueued' : u.reports = [] := hlooked'.staysAt.reports.trans hagain.quiet.queued
  refine Yields.bind_run fun found v hrun => ?_
  obtain ⟨rfl, rfl⟩ := Prod.mk.inj (hback.symm.trans hrun)
  refine Yields.modify_bind (Yields.bind_run fun b w hrun' => ?_)
  obtain ⟨rfl, rfl⟩ := Prod.mk.inj ((next_run hnext' hqueued').symm.trans hrun')
  rw [if_neg (by simp [hliteral])]
  exact noValue_fails.loud _ hs.recovering

theorem propertyEnd_keeps (hi : Moves Extends inner) (hs : s.recovering = false) (N : Nat)
    (m : Node) :
    Yields (propertyEnd inner key N (some m)) s fun qs t =>
      t.reports = [] → t.exhausted = true ∨ 1 < qs.length ∨ qs = [(key, m)] := by
  have hseparator : Yields (objectSeparator inner [(key, m)]) s fun r t =>
      r.carried = [(key, m)] ∧ t.recovering = false :=
    ((objectSeparator_carried _).and (objectSeparator_extends hi _ s)).mono fun _ _ ht =>
      ⟨ht.1, ht.2.recovering.trans hs⟩
  refine Yields.bind (f := furtherTurns (objectEntry inner) N) hseparator fun r t ht => ?_
  cases r with
  | done qs => exact fun _ => .inr (.inr ht.1)
  | again qs =>
    obtain ⟨rfl, hrec⟩ := ht
    exact (objectTurns_grow hi hrec N _).mono fun rs v hv hr =>
      (hv hr).imp id (Or.imp id fun h => h.2.2.1)

/-- Reads the first element behind a look at its first token. -/
def firstElement (depth N : Nat) (again : Bool) : Parser (List Node) :=
  rewind again >>= fun _ => discard >>= fun _ =>
    (collection depth false >>= orLiteral) >>= elementEnd (collection depth false) N

theorem collection_extends (depth : Nat) : Moves Extends (collection depth false) :=
  (collection_mirrors depth depth false).left

theorem firstElement_colon (depth : Nat) (hu : Unread policy ds u) {b : Token} {t : Tokenizer}
    (hb : Looked u b t) (hkind : b.kind = .colon) (hnone : b.isLiteral = false) (N : Nat) :
    ∃ t', Unread policy ds { u with tokenizer := t' }
      ∧ (firstElement (depth + 1) N false).run { u with tokenizer := t }
        = (literalValue >>= elementEnd (collection (depth + 1) false) N).run
          { u with tokenizer := t' } := by
  have hahead : t.replay.discard.ahead = [(b, u.tokenizer.cursor)] := by
    simp [Tokenizer.replay, Tokenizer.discard, hb.taken, hb.ahead]
  have hline : b.kind ≠ .lineBreak := by simp [hkind]
  have hstays : u.tokenizer.StaysAt t.replay.discard := hb.staysAt.replay
  obtain ⟨x, hx⟩ : ∃ x, t.replay.discard.next true .value u.visible.operators = (b, x) :=
    ⟨_, Tokenizer.next_kept hahead hline⟩
  have hstays' : u.tokenizer.StaysAt x := by
    have hkept := Tokenizer.kept_staysAt .value u.visible.operators hahead hline
    rw [hx] at hkept
    exact hstays.trans hkept
  have hback := collection_gives_back (s := { u with tokenizer := t.replay.discard })
    depth hx (hstays'.reports.trans hu.quiet.queued) hnone (by rw [hkind]; rfl)
  refine ⟨x.replay.reread, hu.back hstays'.replay, ?_⟩
  change ((collection (depth + 1) false >>= orLiteral) >>= elementEnd _ N).run
    { u with tokenizer := t.replay.discard } = _
  rw [bind_assoc, run_bind hback]
  rfl

theorem firstElement_zero (again : Bool) (N : Nat) :
    Yields (firstElement 0 N again) s fun _ v => v.exhausted = true := by
  have hmoves : Moves Extends (orLiteral none >>= elementEnd (collection 0 false) N) :=
    (orLiteral_extends none).bind (elementEnd_extends (collection_extends 0) N)
  unfold firstElement
  rw [bind_assoc]
  exact Yields.modify_bind (Yields.modify_bind ((hmoves _).mono fun _ _ hv => hv.exhausted rfl))

theorem colon_follows (h : Scan.Twins cs ds) (hs : Unread policy (' ' :: cs) s)
    (hu : Unread policy ds u) {l : Lexeme} (hl : Scan.next policy .value {} s.tokenizer.cursor = l)
    (hr : l.reports = []) (hliteral : l.token.isLiteral = true)
    (hword : l.token.kind.isSign = false)
    (hallowed : ∀ m, allowed m → m.isPrimitive = true) {b : Token} {t : Tokenizer}
    (hb : Looked u b t) (hkind : b.kind = .colon) (hnone : b.isLiteral = false) (N N' : Nat) :
    Yields ((collection (depth + 1) false >>= orLiteral) >>=
        propertyEnd (collection (depth + 1) false) key N) s fun qs v =>
      Yields (firstElement depth' N' false) { u with tokenizer := t } fun xs w =>
        Smooth v w → SingleTwins allowed qs xs v w := by
  rw [bind_assoc]
  refine Yields.by_run fun qs v hleft => Yields.by_run fun xs w hright hsm => ?_
  obtain ⟨found, s', hfound⟩ : ∃ found s', (collection (depth + 1) false).run s = (found, s') :=
    ⟨_, _, rfl⟩
  rw [run_bind hfound] at hleft
  have hext : Extends s' v := ((orLiteral_extends found).bind
    (propertyEnd_extends key (collection_extends (depth + 1)) N) s').of_run hleft
  have hreports : s'.reports = [] := List.prefix_nil.mp (hsm.reports ▸ hext.reports)
  have hcomplete : s'.exhausted = false :=
    Bool.eq_false_iff.mpr fun he => Bool.false_ne_true (hsm.complete.symm.trans (hext.exhausted he))
  obtain ⟨x, hx, hlooked⟩ := hs.look true hl hr (TokenKind.ne_of_isSign hword rfl)
  have hqueued : x.reports = [] := hlooked.staysAt.reports.trans hs.quiet.queued
  have hcollection := (collection_word depth hs.quiet hs.recovering
    (by rwa [hs.discard_eq]) hqueued hliteral hword).of_run hfound hreports hcomplete
  rcases hcollection with ⟨m, rfl, hm⟩ | ⟨rfl, hsilent, rfl⟩
  · -- A collection that the literal names is not among the values that are allowed.
    intro key' m' hqs hm' _
    have hkeeps := (propertyEnd_keeps (collection_extends (depth + 1))
      ((collection_extends (depth + 1) s).of_run hfound
        |>.recovering.trans hs.recovering) N m).of_run
      hleft hsm.reports
    rcases hkeeps with hcut | hmore | hsame
    · exact absurd (hsm.complete.symm.trans hcut) Bool.false_ne_true
    · exact absurd hmore (by simp [hqs])
    · obtain ⟨⟨-, rfl⟩, -⟩ := List.cons.inj (hsame.symm.trans hqs)
      exact absurd (hm.symm.trans (hallowed m hm')) Bool.false_ne_true
  · -- The literal is the value, and the list reads it again as its first element.
    have hread := Tokenizer.read_silent false hlooked.ahead
      (hlooked.staysAt.reported.trans hs.reported) nofun hsilent
    have hback := hs.back (hlooked.staysAt.trans
      (Tokenizer.read_staysAt false hlooked.ahead hread nofun)).reread
    have hleft' : (literalValue >>= propertyEnd (collection (depth + 1) false) key N).run
        { s with tokenizer := (x.next false .unexpected s.visible.operators).2.reread.reread }
          = (qs, v) := hleft
    cases depth' with
    | zero =>
      exact absurd (hsm.complete'.symm.trans ((firstElement_zero false N').of_run hright))
        Bool.false_ne_true
    | succ depth' =>
      obtain ⟨t', hu', hrun⟩ := firstElement_colon depth' hu hb hkind hnone N'
      have hends := ends_mirrors allowed key literalValue_mirrors
        (collection_extends (depth + 1)) (collection_extends (depth' + 1)) N N'
      exact ((hends.follows _ _ (hback.alongside h hu')).of_run hleft').of_run
        (hrun.symm.trans hright) hsm

theorem listValue_first (depth N : Nat) (b : Token) :
    listValue (collection depth false) [] b >>= furtherTurns (listEntry (collection depth false)) N
      = firstElement depth N (b.kind == .unexpected) := by
  unfold listValue firstElement
  rw [bind_assoc, expr_eq]
  refine congrArg (rewind _ >>= ·) (funext fun _ => ?_)
  rw [bind_assoc, bind_assoc]
  refine congrArg (discard >>= ·) (funext fun _ => ?_)
  refine congrArg ((collection depth false >>= orLiteral) >>= ·) (funext fun found => ?_)
  cases found <;> rfl

theorem behindColon_first (depth N : Nat) (a : Token) :
    behindColon (collection depth false) a []
      >>= furtherTurns (objectEntry (collection depth false)) N
      = discard >>= fun _ => (collection depth false >>= orLiteral) >>=
        propertyEnd (collection depth false) a.text N := by
  rw [behindColon_eq rfl]
  unfold exprOrError
  rw [expr_eq, bind_assoc, bind_assoc, bind_assoc]
  refine congrArg (discard >>= ·) (funext fun _ => ?_)
  refine congrArg ((collection depth false >>= orLiteral) >>= ·) (funext fun found => ?_)
  cases found <;> rfl

theorem ne_of_isOpening {k l : TokenKind} (hk : isOpening k = true) (hl : isOpening l = false) :
    k ≠ l := by
  rintro rfl
  exact absurd (hk.symm.trans hl) (by decide)

/-- Where the value is read as if nobody had looked, both runs come to the same. -/
theorem looked_follows (h : Alongside s u) {a b : Tokenizer} (hab : a.Twins b) (again : Bool)
    (hsame : (if again then a.reread else a.replay).discard.next true .value s.visible.operators
      = s.tokenizer.discard.next true .value s.visible.operators) (N N' : Nat) :
    Yields ((collection (depth + 1) false >>= orLiteral) >>=
        propertyEnd (collection (depth + 1) false) key N) s fun qs t =>
      Yields (firstElement depth' N' again) { u with tokenizer := b } fun xs v =>
        Smooth t v → SingleTwins allowed qs xs t v := by
  have hback : (if again then a.reread else a.replay).Twins
      (if again then b.reread else b.replay) := by
    cases again with
    | true => exact hab.reread
    | false => exact hab.replay
  have hboth : Mirrors Alongside (SingleTwins allowed)
      ((collection (depth + 1) false >>= orLiteral) >>=
        propertyEnd (collection (depth + 1) false) key N)
      ((collection depth' false >>= orLiteral) >>= elementEnd (collection depth' false) N') :=
    ends_mirrors _ _ (orLiteral_mirrors (collection_mirrors _ depth' false)) (collection_extends _)
      (collection_extends depth') N N'
  have hcollection := collection_congr depth s
    (u := (if again then a.reread else a.replay).discard) hsame
  refine Yields.by_run fun qs t hleft => Yields.by_run fun xs v hright hsm => ?_
  have hleft' := hleft
  rw [bind_assoc, run_bind (Prod.eta _).symm, ← hcollection] at hleft'
  have hleft'' : ((collection (depth + 1) false >>= orLiteral) >>=
      propertyEnd (collection (depth + 1) false) key N).run
        { s with tokenizer := (if again then a.reread else a.replay).discard } = (qs, t) := by
    rw [bind_assoc, run_bind (Prod.eta _).symm]
    exact hleft'
  exact ((hboth.follows _ _ (h.setTokenizers hback).discard).of_run hleft'').of_run hright hsm

/-- Reads an element behind a look at its first token, unless the list ends there. -/
def elementFrom (depth N : Nat) (b : Token) : Parser (List Node) :=
  entryTurn "Unterminated list" .rightBracket [] (listValue (collection depth false) []) b >>=
    furtherTurns (listEntry (collection depth false)) N

theorem elementFrom_eq {b : Token} (hend : b.kind ≠ .endOfFile) (hcloser : b.kind ≠ .rightBracket)
    (hcomma : b.kind ≠ .comma) (depth N : Nat) :
    elementFrom depth N b = firstElement depth N (b.kind == .unexpected) := by
  rw [elementFrom, entryTurn_entry hend hcloser hcomma, listValue_first]

theorem elementFrom_extends (depth N : Nat) (b : Token) : Moves Extends (elementFrom depth N b) :=
  (entryTurn_extends (listValue_extends (collection_extends depth) []) b).bind
    (furtherTurns_extends (listEntry_extends (collection_extends depth)) N)

theorem Yields.reported_bind {β : Type} {P : Prop} {p : Parser α} {f : α → Parser β}
    (h : Yields p s fun _ t => t.reports = [] → P) (hf : ∀ a, Moves Extends (f a)) :
    Yields (p >>= f) s fun _ t => t.reports = [] → P :=
  Yields.bind h fun a t ht => (hf a t).mono fun _ _ hv hr =>
    ht (List.prefix_nil.mp (hr ▸ hv.reports))

theorem Alongside.inLine (h : Alongside s u) (policy : UnicodePolicy) (mode : ReadMode) :
    (Scan.next policy mode {} s.tokenizer.cursor).token.kind ≠ .lineBreak := by
  rcases next_places policy mode h.twins.cursor with hm | hk
  · exact hm.inLine
  · exact hk.2.inLine

/-- Where a property is read without a report, so is the first token of its value. -/
theorem value_silent (hs : Unread policy text s)
    (hline : (Scan.next policy .value {} s.tokenizer.cursor).token.kind ≠ .lineBreak) (N : Nat) :
    Yields ((collection (depth + 1) false >>= orLiteral) >>=
        propertyEnd (collection (depth + 1) false) key N) s fun _ t => t.reports = [] →
      (Scan.next policy .value {} s.tokenizer.cursor).reports = [] := by
  have hreported := Yields.reported_bind (Yields.reported_bind
    (collection_reported depth hs.recovering) orLiteral_extends)
    (propertyEnd_extends key (collection_extends (depth + 1)) N)
  refine hreported.mono fun _ _ ht hr => ?_
  have hnext := ht hr
  rw [hs.discard_eq, hs.quiet.visible] at hnext
  have hread := Tokenizer.read_silent true hs.rests.ahead hs.reported
    (by rw [hs.policy_eq]; exact fun _ => hline) hnext
  rwa [hs.policy_eq] at hread

/-- Both runs look at the first token of the value, which has been found to be read in silence. -/
structure Glanced (policy : UnicodePolicy) (s u : ParserState) (a b : Tokenizer) : Prop where
  alongside : Alongside s u
  silent : (Scan.next policy .value {} s.tokenizer.cursor).reports = []
  look : s.tokenizer.next true .unexpected s.visible.operators
    = ((Scan.next policy .unexpected {} s.tokenizer.cursor).token, a)
  look' : u.tokenizer.next true .unexpected u.visible.operators
    = ((Scan.next policy .unexpected {} u.tokenizer.cursor).token, b)
  looked : Looked u (Scan.next policy .unexpected {} u.tokenizer.cursor).token b
  found : (Scan.next policy .unexpected {} s.tokenizer.cursor).Matches s.tokenizer.cursor
    (Scan.next policy .unexpected {} u.tokenizer.cursor)
  twins : a.Twins b

theorem Alongside.glance (h : Alongside s u) (hs : Unread policy text s) (hu : Unread policy ds u)
    (hsilent : (Scan.next policy .value {} s.tokenizer.cursor).reports = []) :
    ∃ a b, Glanced policy s u a b := by
  have hlook : (Scan.next policy .unexpected {} s.tokenizer.cursor).reports = [] :=
    next_silent hsilent
  have hm := (next_places policy .unexpected h.twins.cursor).resolve_right
    fun hk => absurd hk.1 (by decide)
  obtain ⟨a, ha, hlooked⟩ := hs.look true rfl hlook hm.inLine
  obtain ⟨b, hb, hlooked'⟩ := hu.look true rfl (hm.reports hlook) (hm.token.inLine hm.inLine)
  refine ⟨a, b, h, hsilent, ha, hb, hlooked', hm, ?_⟩
  have hhands := h.twins.next true .unexpected (by
    have hstays := hlooked.staysAt.reports.trans hs.quiet.queued
    rw [hs.quiet.visible] at ha
    rwa [ha])
  rw [hs.quiet.visible] at ha
  rw [hu.quiet.visible] at hb
  rw [ha, hb] at hhands
  exact (hhands.resolve_right fun hk => absurd hk.1 (by decide)).twins

section

variable {a b : Tokenizer}

theorem Glanced.unexpected_follows (h : Glanced policy s u a b) (hs : Unread policy text s)
    (hkind : (Scan.next policy .unexpected {} s.tokenizer.cursor).token.kind = .unexpected)
    (N N' : Nat) :
    Yields ((collection (depth + 1) false >>= orLiteral) >>=
        propertyEnd (collection (depth + 1) false) key N) s fun qs t =>
      Yields (elementFrom depth' N' (Scan.next policy .unexpected {} u.tokenizer.cursor).token)
        { u with tokenizer := b } fun xs v => Smooth t v → SingleTwins allowed qs xs t v := by
  have hkind' : (Scan.next policy .unexpected {} u.tokenizer.cursor).token.kind = .unexpected :=
    (h.found.token.kind_eq (by simp [hkind])).trans hkind
  rw [elementFrom_eq (by simp [hkind']) (by simp [hkind']) (by simp [hkind']), hkind']
  refine looked_follows h.alongside h.twins true ?_ N N'
  have hagain := Tokenizer.next_reread true .unexpected s.visible.operators hs.taken hs.rests.ahead
  rw [h.look, hs.policy_eq, hs.quiet.visible] at hagain
  rw [hs.quiet.visible]
  exact hagain (next_silent h.silent) (h.alongside.inLine _ _) h.silent (h.alongside.inLine _ _)

theorem Glanced.opening_follows (h : Glanced policy s u a b) (hs : Unread policy text s)
    (hsame : Scan.next policy .value {} s.tokenizer.cursor
      = Scan.next policy .unexpected {} s.tokenizer.cursor)
    (ho : isOpening (Scan.next policy .unexpected {} s.tokenizer.cursor).token.kind = true)
    (N N' : Nat) :
    Yields ((collection (depth + 1) false >>= orLiteral) >>=
        propertyEnd (collection (depth + 1) false) key N) s fun qs t =>
      Yields (elementFrom depth' N' (Scan.next policy .unexpected {} u.tokenizer.cursor).token)
        { u with tokenizer := b } fun xs v => Smooth t v → SingleTwins allowed qs xs t v := by
  have hne {k : TokenKind} (hk : isOpening k = false) :
      (Scan.next policy .unexpected {} u.tokenizer.cursor).token.kind ≠ k := by
    rw [h.found.token.kind_eq (ne_of_isOpening ho rfl)]
    exact ne_of_isOpening ho hk
  rw [elementFrom_eq (hne rfl) (hne rfl) (hne rfl), beq_eq_false_iff_ne.mpr (hne rfl)]
  refine looked_follows h.alongside h.twins false ?_ N N'
  have hagain := Tokenizer.next_replay true .unexpected s.visible.operators hs.taken hs.rests.ahead
  rw [h.look, hs.policy_eq, hs.quiet.visible] at hagain
  rw [hs.quiet.visible]
  exact hagain hsame (next_silent h.silent) (h.alongside.inLine _ _)

end

/-- Behind the colon of a property a value is read as behind a look at its first token. -/
theorem value_mirrors (h : Scan.Twins cs ds) (pos : Nat)
    (hcolon : (Scan.next policy .unexpected {} ⟨pos, ds⟩).token.kind = .colon →
      ∀ m, allowed m → m.isPrimitive = true) (depth depth' N N' : Nat) :
    Mirrors (fun s u => Unread policy (' ' :: cs) s ∧ Unread policy ds u) (SingleTwins allowed)
      ((collection depth false >>= orLiteral) >>= propertyEnd (collection depth false) key N)
      (next true .unexpected >>= elementFrom depth' N') := by
  have hright : Moves Extends (next true .unexpected >>= elementFrom depth' N') :=
    (next_extends _ _).bind (elementFrom_extends depth' N')
  have hend := propertyEnd_extends key (collection_extends depth) N
  cases depth with
  | zero =>
    have hcut := ((collection_zero_fails false).bind orLiteral_extends).bind hend
    exact hcut.mirrors hright fun _ _ _ => trivial
  | succ depth =>
    have hvalue := (collection_extends (depth + 1)).bind orLiteral_extends
    refine ⟨hvalue.bind hend, hright, fun s u ⟨hs, hu⟩ => ?_⟩
    refine Yields.by_run fun qs t hleft => Yields.by_run fun xs v hrun hsm => ?_
    have halong := hs.alongside h hu
    have hsilent := (value_silent hs (halong.inLine policy .value) N).of_run hleft hsm.reports
    obtain ⟨a, b, hg⟩ := halong.glance hs hu hsilent
    have hrun' := (run_bind (next_run hg.look'
      (hg.looked.staysAt.reports.trans hu.quiet.queued))).symm.trans hrun
    obtain ⟨hliteral, hcases⟩ := next_unexpected_cases policy {} s.tokenizer.cursor
    -- the kind of the token decides whether its text is read again
    rcases hcases with hkind | hkind | hsame
    · exact ((hg.unexpected_follows hs hkind N N').of_run hleft).of_run hrun' hsm
    · have hkind' : (Scan.next policy .unexpected {} u.tokenizer.cursor).token.kind = .colon :=
        (hg.found.token.kind_eq (by simp [hkind])).trans hkind
      rw [elementFrom_eq (by simp [hkind']) (by simp [hkind']) (by simp [hkind']), hkind'] at hrun'
      obtain ⟨hliteral', hword⟩ := next_value_of_colon hkind
      refine ((colon_follows h hs hu rfl hsilent hliteral' hword ?_ hg.looked hkind' ?_ N N').of_run
        hleft).of_run hrun' hsm
      · refine hcolon ?_
        have hplace : TwinPlaces s.tokenizer.cursor.rest (Cursor.mk pos ds).rest :=
          hs.rests.rest ▸ .blank h
        have hm := (next_places policy .unexpected hplace).resolve_right
          fun hk => absurd hk.1 (by decide)
        exact (hm.token.kind_eq (by simp [hkind])).trans hkind
      · exact (next_unexpected_cases policy {} u.tokenizer.cursor).1
    · cases ho : isOpening (Scan.next policy .unexpected {} s.tokenizer.cursor).token.kind with
      | true => exact ((hg.opening_follows hs hsame ho N N').of_run hleft).of_run hrun' hsm
      | false =>
        have hloud := noValue_loud depth hs rfl hsilent (halong.inLine policy .value)
          (by rwa [hsame]) (by rwa [hsame])
        have hfails : Fails (· = s) (collection (depth + 1) false >>= orLiteral) :=
          ⟨hvalue, fun _ he => he ▸ hloud⟩
        have hcut := ((hfails.bind hend).loud s rfl).of_run hleft hsm.reports
        exact absurd (hsm.complete.symm.trans hcut) Bool.false_ne_true

theorem property_mirrors (h : Scan.Twins cs ds) (pos : Nat)
    (hcolon : (Scan.next policy .unexpected {} ⟨pos, ds⟩).token.kind = .colon →
      ∀ m, allowed m → m.isPrimitive = true) (depth depth' N N' : Nat) (a : Token) :
    Mirrors (fun s u => Stands policy (' ' :: cs) s ∧ Stands policy ds u) (SingleTwins allowed)
      (behindColon (collection depth false) a [] >>=
        furtherTurns (objectEntry (collection depth false)) N)
      (listEntry (collection depth' false) [] >>=
        furtherTurns (listEntry (collection depth' false)) N') := by
  have hright : listEntry (collection depth' false) [] >>=
      furtherTurns (listEntry (collection depth' false)) N'
        = discard >>= fun _ => next true .unexpected >>= elementFrom depth' N' := by
    rw [listEntry_eq, bind_assoc]
    rfl
  rw [behindColon_first, hright]
  refine (Mirrors.step discard_extends discard_extends fun s u hs => ?_).bind
    fun _ _ => value_mirrors h pos hcolon depth depth' N N'
  exact Yields.of_modify (Yields.of_modify ⟨hs.1.unread, hs.2.unread⟩)

/-! ## Scripts -/

theorem start_stands (config : Config) {source : Source} (h : source.chars = text) :
    Stands config.unicodePolicy text (start config {} source) := by
  subst h
  exact ⟨start_quiet config source, rfl, ⟨rfl, rfl⟩, rfl, rfl⟩

theorem topCollection_twins (allowed : Node → Prop) (h : Scan.Twins cs ds) (pos : Nat)
    (hcolon : (Scan.next policy .unexpected {} ⟨pos, ds⟩).token.kind = .colon →
      ∀ m, allowed m → m.isPrimitive = true)
    (hs : Stands policy ('{' :: 'k' :: ':' :: ' ' :: cs) s) (hu : Stands policy ('[' :: ds) u) :
    Yields topCollection s fun found t => ∃ ps i, found = some ((Node.object "" ps {}).placedAt i)
      ∧ Yields topCollection u fun found' v => Smooth t v →
        ∃ xs j, found' = some ((Node.list "" false xs {}).placedAt j)
          ∧ SingleTwins allowed ps xs t v := by
  obtain ⟨kind, hkind, hl⟩ : ∃ kind : TokenKind, kind.isSign = false
      ∧ Lexes .key ('k' :: ':' :: ' ' :: cs) kind (some "k") (':' :: ' ' :: cs) := by
    have hends : Ends (rulesOf .key) (':' :: ' ' :: cs) := by
      simp [Ends, WordRules.stopsAt, rulesOf]
    have hbare : ∀ c ∈ "k".toList, Text.BareChar c := by
      rintro c hc
      obtain rfl : c = 'k' := List.mem_singleton.mp hc
      decide
    obtain ⟨kind, ⟨hk, -⟩, hl⟩ := lexes_bare rfl (by decide) hbare hends
    refine ⟨kind, ?_, hl⟩
    cases kind <;> first | rfl | exact Bool.noConfusion hk
  refine Yields.of_object hs hl hkind rfl fun depth N i j t ht => ?_
  refine Yields.by_run fun ps v hleft => ⟨ps, i, rfl, ?_⟩
  refine Yields.of_list hu fun depth' N' i' u' hu' => ?_
  have hmirrors := property_mirrors h pos hcolon depth depth' N N' ⟨kind, j, some "k"⟩
  exact ((hmirrors.follows t u' ⟨ht, hu'⟩).of_run hleft).mono
    fun xs w hw hsm => ⟨xs, i', rfl, hw hsm⟩

/-- A line as the value of the only property of an object. -/
def asProperty (line : String) : Source := Source.ofText ("\x7bk: " ++ line ++ "\x7d")

/-- A line as the only element of a list. -/
def asElement (line : String) : Source := Source.ofText ("[" ++ line ++ "]")

/-- The collection at the start of a script takes all of its text. -/
def TakesAll (config : Config) (source : Source) : Prop :=
  (topCollection.run (start config {} source)).2.tokenizer.here.rest = []

instance (config : Config) (source : Source) : Decidable (TakesAll config source) :=
  inferInstanceAs (Decidable (_ = []))

/-- Behind blanks and comments the element of a list starts with a colon. -/
def startsWithColon (line : String) : Bool :=
  (skipBlank 1 (line.toList ++ [']'])).1.rest.head? == some ':'

theorem chars_asProperty {line : String} (h : '\r' ∉ line.toList) :
    (asProperty line).chars = '{' :: 'k' :: ':' :: ' ' :: (line.toList ++ ['}']) := by
  rw [asProperty, chars_ofText]
  · simp
  · simpa using h

theorem chars_asElement {line : String} (h : '\r' ∉ line.toList) :
    (asElement line).chars = '[' :: (line.toList ++ [']']) := by
  rw [asElement, chars_ofText]
  · simp
  · simpa using h

theorem startsWithColon_of_next {line : String}
    (h : (Scan.next policy .unexpected {} ⟨1, line.toList ++ [']']⟩).token.kind = .colon) :
    startsWithColon line = true := by
  unfold startsWithColon
  simp only [Scan.next] at h
  generalize (skipBlank 1 (line.toList ++ [']'])).1 = d at h ⊢
  obtain ⟨pos, _ | ⟨ch, cs⟩⟩ := d
  · simp [lexeme, Token.sign] at h
  · rw [lexeme_cons] at h
    cases hs : sign? .unexpected ch with
    | none =>
      simp only [hs, ofQuoted, ofWord, if_true] at h
      split at h
      · simp [Token.sign] at h
      · simp [Token.sign] at h
    | some kind =>
      simp only [hs, Token.sign] at h
      subst h
      have hch : ch = ':' := by
        unfold sign? at hs
        split at hs <;> simp_all
      simp [hch]

variable {σ : Type}

/-- A line that is the value of the only property of an object, closed by the brace behind the
line, is the same value as the only element of a list, unless it starts with a colon and is a
collection. -/
theorem compile_asElement (config : Config) (resolve : Resolver σ) (imports : σ) {line : String}
    (hline : ∀ c ∈ line.toList, c ≠ '\n' ∧ c ≠ '\r') {name : String} {m : Node} {info : NodeInfo}
    (hreports : (compile config resolve {} (asProperty line) imports).1.reports = [])
    (hroot : (compile config resolve {} (asProperty line) imports).1.root
      = [.object name [("k", m)] info])
    (hall : TakesAll config (asProperty line))
    (hcolon : startsWithColon line = true → m.isPrimitive = true) :
    (compile config resolve {} (asElement line) imports).1.reports = []
      ∧ ∃ n info', (compile config resolve {} (asElement line) imports).1.root
          = [.list "" false [n] info']
        ∧ n.withoutInfo = m.withoutInfo ∧ same n m = true := by
  have hreturn : '\r' ∉ line.toList := fun h => (hline _ h).2 rfl
  have hproperty := chars_asProperty hreturn
  have helement := chars_asElement hreturn
  have htwins : Scan.Twins (line.toList ++ ['}']) (line.toList ++ [']']) :=
    .append_closers fun c hc => (hline c hc).1
  obtain ⟨ps, i, hfound, hright⟩ := topCollection_twins (· = m) htwins 1
    (fun h n hn => hn ▸ hcolon (startsWithColon_of_next h)) (start_stands config hproperty)
    (start_stands config helement)
  obtain ⟨found, t, hrun⟩ : ∃ found t,
      topCollection.run (start config {} (asProperty line)) = (found, t) := ⟨_, _, rfl⟩
  obtain ⟨found', v, hrun'⟩ : ∃ found v,
      topCollection.run (start config {} (asElement line)) = (found, v) := ⟨_, _, rfl⟩
  have hfinds := ((topCollection_reader _).finds _
    (start_ready config OperatorTable.valid_empty _) (Nat.lt_succ_self _)).of_run hrun
  have hfinds' := ((topCollection_reader _).finds _
    (start_ready config OperatorTable.valid_empty _) (Nat.lt_succ_self _)).of_run hrun'
  rw [TakesAll, hrun] at hall
  rw [hrun] at hfound hright
  subst hfound
  -- the object is the script, so that it has the property and nothing was reported in it
  have hover : t.tokenizer.Over := hfinds.commits.ready.onText.isOver hall
  obtain ⟨hsingle, hsame⟩ := compile_collection resolve imports (.inl rfl) hproperty
    (fun _ _ => rfl) hrun hover
  rw [hroot] at hsingle
  obtain ⟨-, rfl, -⟩ := Node.object.inj (List.cons.inj hsingle).1
  have hsmooth : Smooth t v :=
    ⟨hsame.symm.trans hreports, hfinds.commits.ready.complete, hfinds'.commits.ready.complete⟩
  obtain ⟨xs, j, rfl, hxs⟩ := hright.of_run hrun' hsmooth
  obtain ⟨n, rfl, hn, hover', hreports'⟩ := hxs "k" m rfl rfl hall
  obtain ⟨hlist, hsame'⟩ := compile_collection resolve imports (.inr rfl) helement
    (fun mode hm => by simp [sign?, hm]) hrun' hover'
  refine ⟨hsame'.trans hreports', n, _, hlist, hn.withoutInfo, ?_⟩
  exact same_of_withoutInfo n m hn.keyed hn.withoutInfo

theorem inLine_of_all {cs : List Char} (h : cs.all (fun c => c != '\n' && c != '\r') = true) :
    ∀ c ∈ cs, c ≠ '\n' ∧ c ≠ '\r' := by
  simpa using h

theorem exists_single {root : List Node} {key : String}
    (h : root.map (fun n => n.properties?.map Properties.keys) = [some [key]]) :
    ∃ name m info, root = [.object name [(key, m)] info] := by
  obtain ⟨n, rfl, hn⟩ := List.map_eq_singleton_iff.mp h
  cases n with
  | primitive => simp [properties?] at hn
  | list => simp [properties?] at hn
  | object name props info =>
    simp only [properties?, Option.map_some, Option.some.injEq] at hn
    obtain ⟨⟨_, m⟩, rfl, rfl⟩ := List.map_eq_singleton_iff.mp hn
    exact ⟨name, m, info, rfl⟩

/-- An operation with an object in it, and a comment that holds a comma. -/
theorem compile_asElement_nested :
    let resolve : Resolver Unit := fun _ i => (.crashed, i)
    let line := "x(1, \x7by: ']'\x7d) /* , */"
    let c := (compile {} resolve {} (asProperty line) ()).1
    let d := (compile {} resolve {} (asElement line) ()).1
    (∀ c ∈ line.toList, c ≠ '\n' ∧ c ≠ '\r') ∧ c.reports = [] ∧ TakesAll {} (asProperty line)
      ∧ ∃ name m info, c.root = [.object name [("k", m)] info]
        ∧ (startsWithColon line = true → m.isPrimitive = true)
        ∧ d.reports = [] ∧ ∃ n info', d.root = [.list "" false [n] info']
          ∧ n.withoutInfo = m.withoutInfo ∧ same n m = true := by
  intro resolve line c d
  have hline : ∀ c ∈ line.toList, c ≠ '\n' ∧ c ≠ '\r' := inLine_of_all (by decide +kernel)
  have hreports : c.reports = [] := by decide +kernel
  have hall : TakesAll {} (asProperty line) := by decide +kernel
  have hcolon : startsWithColon line = false := by decide +kernel
  have hsingle : ∃ name m info, c.root = [.object name [("k", m)] info] :=
    exists_single (by decide +kernel)
  obtain ⟨name, m, info, hroot⟩ := hsingle
  have hskip (h : startsWithColon line = true) : m.isPrimitive = true :=
    absurd (hcolon.symm.trans h) Bool.false_ne_true
  exact ⟨hline, hreports, hall, name, m, info, hroot, hskip,
    compile_asElement {} resolve () hline hreports hroot hall hskip⟩

/-- The brace behind the line stands in a comment: the line closes the object itself, and a list
cannot be closed so. -/
theorem commentedBrace_no_element :
    let resolve : Resolver Unit := fun _ i => (.crashed, i)
    let line := "a\x7d //"
    let c := (compile {} resolve {} (asProperty line) ()).1
    (∀ c ∈ line.toList, c ≠ '\n' ∧ c ≠ '\r') ∧ c.reports = []
      ∧ (∃ name m info, c.root = [.object name [("k", m)] info])
      ∧ (compile {} resolve {} (asElement line) ()).1.reports ≠ [] := by
  refine ⟨inLine_of_all (by decide +kernel), by decide +kernel,
    exists_single (by decide +kernel), ?_⟩
  decide +kernel

/-- Behind a look at a colon the list takes no bracket for the name that starts with it. -/
example :
    let resolve : Resolver Unit := fun _ i => (.crashed, i)
    (compile {} resolve {} (asProperty ":a[b]") ()).1.reports = []
      ∧ (compile {} resolve {} (asElement ":a[b]") ()).1.reports ≠ [] := by
  decide +kernel

end Parser

end ConfigScript
