import ConfigScript.Proofs.Token.Kept
import ConfigScript.Proofs.Token.Twins

/-! # Tokens of texts that differ in the last character

The tokens of the same line, closed as an object in one place and as a list in the other, are the
same up to the closing bracket, and so are the tokens that tokenizers keep of it. In the object a
blank may stand in front of the line. -/

namespace ConfigScript

/-- Kinds of tokens that are one sign, or the end of the text. -/
def TokenKind.isSign : TokenKind → Bool
  | .endOfFile | .lineBreak | .leftParen | .rightParen | .leftBrace | .rightBrace => true
  | .leftBracket | .rightBracket | .equals | .comma | .colon => true
  | _ => false

theorem TokenKind.ne_of_isSign {k l : TokenKind} (hk : k.isSign = false) (hl : l.isSign = true) :
    k ≠ l := by
  rintro rfl
  exact absurd (hk.symm.trans hl) (by decide)

namespace Scan

variable {policy : UnicodePolicy} {mode : ReadMode} {place : Cursor} {cs ds : List Char}

/-! ## Single tokens -/

/-- The same token at a place, or one that takes the closing bracket. -/
inductive TokenTwins (place : Cursor) (after : List Char) (a b : Token) : Prop
  | alike (kind : b.kind = a.kind) (literal : b.literal = a.literal)
      (ended : after = [] → a.kind = .endOfFile ∨ a.kind = .unexpected)
  | spoilt (kind : b.kind = a.kind) (literal : a.isLiteral = true ∧ b.isLiteral = true)
      (word : a.kind.isSign = false) (ended : after = [])
  | closers (kinds : a.kind = .rightBrace ∧ b.kind = .rightBracket)
      (literals : a.literal = none ∧ b.literal = none) (ended : after = [])
      (last : (skipBlank place.pos place.rest).1.rest = ['}'])

/-- The same token at the same place of both texts. -/
structure Lexeme.Matches (place : Cursor) (l m : Lexeme) : Prop where
  after : Twins l.after.rest m.after.rest
  token : TokenTwins place l.after.rest l.token m.token
  inLine : l.token.kind ≠ .lineBreak
  reports : l.reports = [] → m.reports = []

/-- Behind a key no colon comes next: the brace closes the object, as a token or behind a
literal. -/
inductive Lexeme.Closes (l : Lexeme) : Prop
  | brace (kind : l.token.kind = .rightBrace) (after : l.after.rest = [])
  | key (kind : l.token.kind = .key) (isLiteral : l.token.isLiteral = true)
    (after : l.after.rest <:+ ['}'])

theorem Lexeme.Closes.inLine {l : Lexeme} (h : l.Closes) : l.token.kind ≠ .lineBreak := by
  cases h with
  | brace kind => simp [kind]
  | key kind => simp [kind]

theorem TokenTwins.inLine {after : List Char} {a b : Token} (h : TokenTwins place after a b)
    (ha : a.kind ≠ .lineBreak) : b.kind ≠ .lineBreak := by
  cases h with
  | alike kind => rwa [kind]
  | spoilt kind => rwa [kind]
  | closers kinds => simp [kinds.2]

theorem TokenTwins.kind_eq {after : List Char} {a b : Token} (h : TokenTwins place after a b)
    (ha : a.kind ≠ .rightBrace) : b.kind = a.kind := by
  cases h with
  | alike kind => exact kind
  | spoilt kind => exact kind
  | closers kinds => exact absurd kinds.1 ha

theorem TokenTwins.ofLiteral {after text text' : List Char} (htext : after ≠ [] → text' = text)
    {kind : TokenKind} (hk : kind.isSign = false) (pos pos' : Nat) :
    TokenTwins place after (.ofLiteral kind pos text) (.ofLiteral kind pos' text') := by
  by_cases ha : after = []
  · exact .spoilt rfl ⟨rfl, rfl⟩ hk ha
  · exact .alike rfl (by rw [htext ha]; rfl) fun h => absurd h ha

theorem sign?_eq_lineBreak {c : Char} (h : sign? mode c = some .lineBreak) : c = '\n' := by
  unfold sign? at h
  split at h
  · rfl
  all_goals simp at h

theorem isSign_wordKind (escaped : Bool) : (wordKind escaped mode).isSign = false := by
  cases mode <;> cases escaped <;> rfl

theorem startsOperator_none (cs : List Char) : startsOperator none cs = false := rfl

theorem startsOperator_empty (cs : List Char) : startsOperator (some {}) cs = false := rfl

theorem isKeyword_empty (word : String) : OperatorTable.isKeyword {} word = false := rfl

theorem term_twins {c c' : Cursor} (h : Twins c.rest c'.rest) :
    (term policy {} c).Matches place (term policy {} c') := by
  simp only [term, longestMatch?_empty, numberLiteral?_twins h, isKeyword_empty, Bool.and_false,
    Bool.false_eq_true, if_false]
  split
  · exact ⟨h.drop _, .ofLiteral (fun _ => rfl) rfl _ _, by simp [Token.ofLiteral], fun _ => rfl⟩
  · rcases word_twins policy (rulesOf .operation) startsOperator_empty h [] c.pos c'.pos with
      hw | hw
    · exact ⟨hw.after, .ofLiteral hw.text rfl _ _, by simp [Token.ofLiteral], hw.reports⟩
    · exact absurd hw.1 (by decide)

theorem pos_eq_iff {c d c' d' : Cursor} (h : c.Reaches d) (h' : c'.Reaches d')
    (hc : Twins c.rest c'.rest) (hd : Twins d.rest d'.rest) : d'.pos = c'.pos ↔ d.pos = c.pos := by
  have hadd := h.pos_add
  have hadd' := h'.pos_add
  rw [hc.length_eq, hd.length_eq] at hadd'
  omega

/-- The token that a word is: a literal, unless only structure is expected. -/
def ofWord (mode : ReadMode) (c : Cursor) (w : Word) : Lexeme :=
  if mode = .unexpected then
    ⟨.sign .unexpected c.pos, if w.after.pos = c.pos then c.advance 1 else w.after, w.reports⟩
  else ⟨.ofLiteral (wordKind w.escaped mode) c.pos w.text, w.after, w.reports⟩

theorem ofWord_matches {c c' : Cursor} {v w : Word} (hc : Twins c.rest c'.rest)
    (hv : c.Reaches v.after) (hw : c'.Reaches w.after) (h : v.Matches w) :
    (ofWord mode c v).Matches place (ofWord mode c' w) := by
  unfold ofWord
  split
  · refine ⟨?_, .alike rfl rfl fun _ => .inr rfl, by simp [Token.sign], h.reports⟩
    simp only [pos_eq_iff hv hw hc h.after]
    split
    · exact hc.drop 1
    · exact h.after
  · rw [h.escaped]
    have hk : (wordKind v.escaped mode).isSign = false := isSign_wordKind _
    exact ⟨h.after, .ofLiteral h.text hk _ _, TokenKind.ne_of_isSign hk rfl, h.reports⟩

/-- The token that a quoted text is. -/
def ofQuoted (mode : ReadMode) (pos : Nat) (w : Word) : Lexeme :=
  ⟨if mode = .unexpected then .sign .unexpected pos else .ofLiteral .quoted pos w.text, w.after,
    w.reports⟩

theorem ofQuoted_matches {v w : Word} (h : v.Matches w) (pos pos' : Nat) :
    (ofQuoted mode pos v).Matches place (ofQuoted mode pos' w) := by
  unfold ofQuoted
  split
  · exact ⟨h.after, .alike rfl rfl fun _ => .inr rfl, by simp [Token.sign], h.reports⟩
  · exact ⟨h.after, .ofLiteral h.text rfl _ _, by simp [Token.ofLiteral], h.reports⟩

theorem lexeme_cons (operators : OperatorTable) (pos : Nat) (ch : Char) (cs : List Char) :
    lexeme policy mode operators ⟨pos, ch :: cs⟩ =
      match sign? mode ch with
      | some kind => ⟨.sign kind pos, ⟨pos + 1, cs⟩, []⟩
      | none =>
        if ch == '"' || ch == '\'' then ofQuoted mode pos (quoted policy ch pos (pos + 1) cs)
        else if mode = .operation then term policy operators ⟨pos, ch :: cs⟩
        else ofWord mode ⟨pos, ch :: cs⟩ (word policy (rulesOf mode) none [] pos (ch :: cs)) := rfl

theorem lexeme_twins (policy : UnicodePolicy) (mode : ReadMode) (place : Cursor) {c c' : Cursor}
    (h : Twins c.rest c'.rest) (hplace : (skipBlank place.pos place.rest).1 = c) :
    (lexeme policy mode {} c).Matches place (lexeme policy mode {} c')
      ∨ mode = .key ∧ (lexeme policy mode {} c).Closes := by
  obtain ⟨pos, rest⟩ := c
  obtain ⟨pos', rest'⟩ := c'
  cases h with
  | empty =>
    rw [lexeme_nil policy mode {} rfl, lexeme_nil policy mode {} rfl]
    exact .inl ⟨.empty, .alike rfl rfl fun _ => .inl rfl, by simp [Token.sign], fun _ => rfl⟩
  | closers =>
    have hleft :
        lexeme policy mode {} ⟨pos, ['}']⟩ = ⟨.sign .rightBrace pos, ⟨pos + 1, []⟩, []⟩ := rfl
    rw [hleft]
    -- The bracket of a list is no sign where a key is expected.
    by_cases hm : mode = .key
    · exact .inr ⟨hm, .brace rfl rfl⟩
    · have hright : lexeme policy mode {} ⟨pos', [']']⟩
          = ⟨.sign .rightBracket pos', ⟨pos' + 1, []⟩, []⟩ := by
        simp [lexeme, sign?, hm, Cursor.advance]
      rw [hright]
      exact .inl ⟨.empty, .closers ⟨rfl, rfl⟩ ⟨rfl, rfl⟩ rfl (by rw [hplace]), by simp [Token.sign],
        fun _ => rfl⟩
  | @cons ch cs ds inLine goesOn twins =>
    have hline : Twins (ch :: cs) (ch :: ds) := .cons inLine goesOn twins
    rw [lexeme_cons, lexeme_cons]
    cases hs : sign? mode ch with
    | some kind =>
      refine .inl ⟨twins, .alike rfl rfl fun hnil => absurd hnil goesOn, ?_, fun _ => rfl⟩
      rintro rfl
      exact inLine (sign?_eq_lineBreak hs)
    | none =>
      simp only
      split
      · rename_i hq
        have hquote : ch ≠ '}' ∧ ch ≠ ']' := by
          constructor <;> rintro rfl <;> exact absurd hq (by decide)
        refine .inl (ofQuoted_matches ?_ pos pos')
        exact quoted_twins hquote pos pos' twins (pos + 1) (pos' + 1)
      · split
        · exact .inl (term_twins hline)
        · rename_i hop
          rcases word_twins policy (rulesOf mode) startsOperator_none hline [] pos pos' with
            hw | ⟨hb, hw⟩
          · exact .inl (ofWord_matches hline (word_reaches ..) (word_reaches ..) hw)
          · have hkey : mode = .key := by cases mode <;> simp [rulesOf] at hb ⊢
            subst hkey
            exact .inr ⟨rfl, .key rfl rfl hw⟩

/-- The token that comes next, with blanks and comments in front of it. -/
theorem next_twins (policy : UnicodePolicy) (mode : ReadMode) {c c' : Cursor}
    (h : Twins c.rest c'.rest) :
    (next policy mode {} c).Matches c (next policy mode {} c')
      ∨ mode = .key ∧ (next policy mode {} c).Closes := by
  obtain ⟨hrest, hreports⟩ := skipBlank_twins h c.pos c'.pos
  refine (lexeme_twins policy mode c hrest rfl).imp (fun hm => ?_) fun hk => ⟨hk.1, ?_⟩
  · refine ⟨hm.after, hm.token, hm.inLine, fun hr => ?_⟩
    have hr' := List.append_eq_nil_iff.mp hr
    exact List.append_eq_nil_iff.mpr ⟨hreports hr'.1, hm.reports hr'.2⟩
  · cases hk.2 with
    | brace kind after => exact .brace kind after
    | key kind isLiteral after => exact .key kind isLiteral after

/-! ## Looking at the structure -/

theorem goes_on {r r' : WordRules} {c : Char} {cs : List Char}
    (hstop : ∀ c, r'.stopsAt c = true → r.stopsAt c = true)
    (h : ¬(r.stopsAt c || (c != '\\' && startsOperator none cs)) = true) :
    ¬(r'.stopsAt c || (c != '\\' && startsOperator none cs)) = true := by
  rw [startsOperator_none, Bool.and_false, Bool.or_false] at h ⊢
  exact fun hs => h (hstop c hs)

theorem word_silent {r r' : WordRules} (hb : r.stopAtBlank = true)
    (hstop : ∀ c, r'.stopsAt c = true → r.stopsAt c = true) (blanks blanks' : List Char) (pos : Nat)
    (h : (word policy r' none blanks' pos cs).reports = []) :
    (word policy r none blanks pos cs).reports = [] := by
  fun_induction word policy r none blanks pos cs generalizing blanks' with
  | case1 => rfl
  | case2 => rfl
  | case3 _ _ _ _ _ hn => exact absurd hb hn
  | case4 blanks pos c rest hs hj =>
    rename_i ih
    rw [word_joined hj] at h
    exact ih blanks' h
  | case5 => rfl
  | case6 _ _ _ _ _ _ _ _ _ hn => exact absurd hb hn
  | case7 => rfl
  | case8 blanks pos c rest hs hj hk hn hc e =>
    rename_i ih
    rw [word_here hs hj hk, if_neg (goes_on hstop hn), if_pos hc] at h
    rw [List.append_eq_nil_iff] at h ⊢
    exact ⟨h.1, ih [] h.2⟩
  | case9 blanks pos c rest hs hj hk hn hc =>
    rename_i ih
    rw [word_here hs hj hk, if_neg (goes_on hstop hn), if_neg hc] at h
    exact ih [] h

theorem stopsAt_unexpected (c : Char) (h : (rulesOf .value).stopsAt c = true) :
    (rulesOf .unexpected).stopsAt c = true := by
  simp only [WordRules.stopsAt, rulesOf, Bool.true_and, Bool.false_and, Bool.or_false,
    Bool.or_eq_true] at h ⊢
  exact .inl (.inl h)

theorem sign?_value {c : Char} (h : sign? .unexpected c = none) : sign? .value c = none := by
  unfold sign? at h ⊢
  split at h <;> simp_all

theorem next_silent {policy : UnicodePolicy} {c : Cursor}
    (h : (next policy .value {} c).reports = []) : (next policy .unexpected {} c).reports = [] := by
  obtain ⟨hskip, hlexeme⟩ := List.append_eq_nil_iff.mp h
  refine List.append_eq_nil_iff.mpr ⟨hskip, ?_⟩
  generalize (skipBlank c.pos c.rest).1 = d at hlexeme ⊢
  obtain ⟨pos, _ | ⟨ch, cs⟩⟩ := d
  · rfl
  · rw [lexeme_cons] at hlexeme ⊢
    cases hs : sign? .unexpected ch with
    | some kind => rfl
    | none =>
      simp only [sign?_value hs] at hlexeme ⊢
      split
      · rename_i hq
        rw [if_pos hq] at hlexeme
        exact hlexeme
      · rename_i hq
        rw [if_neg hq] at hlexeme
        exact word_silent rfl stopsAt_unexpected [] [] pos hlexeme

/-! ## Places -/

/-- The same place of both texts, with a blank left out in the second. -/
inductive TwinPlaces : List Char → List Char → Prop
  | here {cs ds : List Char} (twins : Twins cs ds) : TwinPlaces cs ds
  | blank {cs ds : List Char} (twins : Twins cs ds) : TwinPlaces (' ' :: cs) ds

theorem TwinPlaces.nil_of (h : TwinPlaces cs ds) (hc : cs = []) : ds = [] := by
  cases h with
  | here twins => exact twins.nil_iff.mp hc
  | blank => exact absurd hc (List.cons_ne_nil _ _)

/-- The token that comes next, at the same place of both texts. -/
theorem next_places (policy : UnicodePolicy) (mode : ReadMode) {c c' : Cursor}
    (h : TwinPlaces c.rest c'.rest) :
    (next policy mode {} c).Matches c (next policy mode {} c')
      ∨ mode = .key ∧ (next policy mode {} c).Closes := by
  obtain ⟨pos, rest⟩ := c
  cases h with
  | here twins => exact next_twins policy mode twins
  | @blank rest _ twins =>
    rw [next_blank]
    refine (next_twins policy mode (c := ⟨pos + 1, rest⟩) twins).imp (fun hm => ?_) id
    refine ⟨hm.after, ?_, hm.inLine, hm.reports⟩
    cases hm.token with
    | alike kind literal ended => exact .alike kind literal ended
    | spoilt kind literal word ended => exact .spoilt kind literal word ended
    | closers kinds literals ended last =>
      refine .closers kinds literals ended ?_
      rwa [skipBlank_blank]

end Scan

open Scan

namespace Tokenizer

variable {last last' : Cursor} {es es' fs fs' : List (Token × Cursor)} {t u : Tokenizer}

/-! ## Kept tokens -/

/-- Kept tokens of both texts, up to places of them. -/
inductive KeptTwins (last last' : Cursor) : List (Token × Cursor) → List (Token × Cursor) → Prop
  | nil : KeptTwins last last' [] []
  | cons {e e' : Token × Cursor} {es es' : List (Token × Cursor)}
      (place : TwinPlaces e.2.rest e'.2.rest)
      (token : TokenTwins e.2 (firstPlace last es).rest e.1 e'.1)
      (inLine : e.1.kind ≠ .lineBreak)
      (ended : e.2.rest = [] → e.1.kind = .endOfFile ∧ (firstPlace last es).rest = [])
      (tail : KeptTwins last last' es es') : KeptTwins last last' (e :: es) (e' :: es')

theorem KeptTwins.first (h : KeptTwins last last' es es') (hl : TwinPlaces last.rest last'.rest) :
    TwinPlaces (firstPlace last es).rest (firstPlace last' es').rest := by
  cases h with
  | nil => exact hl
  | cons place => exact place

theorem KeptTwins.append (h : KeptTwins (firstPlace last fs) (firstPlace last' fs') es es')
    (hf : KeptTwins last last' fs fs') : KeptTwins last last' (es ++ fs) (es' ++ fs') := by
  induction h with
  | nil => exact hf
  | cons place token inLine ended _ ih =>
    rw [← firstPlace_append] at token ended
    exact .cons place token inLine ended ih

/-- Tokenizers that have come to the same place of both texts, without reports. -/
structure Twins (t u : Tokenizer) : Prop where
  policy : u.policy = t.policy
  cursor : TwinPlaces t.cursor.rest u.cursor.rest
  taken : KeptTwins t.here u.here t.taken u.taken
  ahead : KeptTwins t.cursor u.cursor t.ahead u.ahead
  silent : t.reports = [] ∧ t.reported = []
  silent' : u.reports = [] ∧ u.reported = []

theorem Twins.here (h : t.Twins u) : TwinPlaces t.here.rest u.here.rest := h.ahead.first h.cursor

theorem Twins.committed (h : t.Twins u) : TwinPlaces t.committed.rest u.committed.rest := by
  rw [committed_eq, committed_eq]
  exact h.taken.first h.here

theorem Twins.discard (h : t.Twins u) : t.discard.Twins u.discard :=
  ⟨h.policy, h.cursor, .nil, h.ahead, h.silent, h.silent'⟩

theorem Twins.replay (h : t.Twins u) : t.replay.Twins u.replay :=
  ⟨h.policy, h.cursor, .nil, h.taken.append h.ahead, h.silent, h.silent'⟩

theorem Twins.reread (h : t.Twins u) : t.reread.Twins u.reread :=
  ⟨h.policy, h.committed, .nil, .nil, h.silent, h.silent'⟩

/-! ## Handing out tokens -/

theorem queue_grows (t : Tokenizer) (rs : List Report) : t.reports <+: (t.queue rs).reports :=
  queue_induction (P := fun u => t.reports <+: u.reports) List.prefix_rfl
    fun _ _ _ h => h.trans (List.prefix_append _ _)

theorem queue_silent {rs : List Report} (ht : t.reported = []) (h : (t.queue rs).reports = []) :
    rs = [] := by
  cases rs with
  | nil => rfl
  | cons r rs =>
    have hgrows := queue_grows (t.queue [r]) rs
    have hqueue : (t.queue [r]).reports = t.reports ++ [r] := by
      simp only [queue, List.foldl_cons, List.foldl_nil, ht]
      rfl
    rw [hqueue] at hgrows
    change _ <+: (t.queue (r :: rs)).reports at hgrows
    rw [h, List.prefix_nil] at hgrows
    exact absurd hgrows (by simp)

/-- Tokens that are handed out at the same place of both texts. -/
structure HandsTwins (t : Tokenizer) (a b : Token) (t' u' : Tokenizer) : Prop where
  twins : t'.Twins u'
  taken : ∃ place, t'.taken = t.taken ++ [(a, place)] ∧ TokenTwins place t'.here.rest a b
  inLine : a.kind ≠ .lineBreak

/-- The last token of the object is handed out where a key is expected, or the brace that closes the
object is all that is left. -/
structure ClosesObject (a : Token) (t' : Tokenizer) : Prop where
  ahead : t'.ahead = []
  closes : Lexeme.Closes ⟨a, t'.cursor, []⟩
  reports : t'.reports = []

theorem Twins.inLine (h : t.Twins u) (mode : ReadMode) :
    (t.advance mode {}).1.kind ≠ .lineBreak := by
  have hahead := h.ahead
  unfold Tokenizer.advance
  generalize t.ahead = kept at hahead ⊢
  generalize u.ahead = kept' at hahead
  cases hahead with
  | cons _ _ inLine => exact inLine
  | nil =>
    rcases Scan.next_places t.policy mode h.cursor with hm | hk
    · exact hm.inLine
    · exact hk.2.inLine

theorem Twins.advance_read (h : t.Twins u) (ht : t.ahead = []) (hu : u.ahead = []) (mode : ReadMode)
    (hr : (t.advance mode {}).2.reports = []) :
    HandsTwins t (t.advance mode {}).1 (u.advance mode {}).1 (t.advance mode {}).2
        (u.advance mode {}).2
      ∨ mode = .key ∧ ClosesObject (t.advance mode {}).1 (t.advance mode {}).2 := by
  have htaken := h.taken
  unfold Tokenizer.here at htaken
  unfold Tokenizer.advance at hr ⊢
  simp only [ht, hu] at htaken hr ⊢
  have hsilent : (Scan.next t.policy mode {} t.cursor).reports = [] :=
    queue_silent h.silent.2 hr
  simp only [hsilent]
  rcases Scan.next_places t.policy mode h.cursor with hm | hk
  · have hsilent' : (Scan.next u.policy mode {} u.cursor).reports = [] := by
      rw [h.policy]
      exact hm.reports hsilent
    have hended : t.cursor.rest = [] →
        (Scan.next t.policy mode {} t.cursor).token.kind = .endOfFile
        ∧ (Scan.next t.policy mode {} t.cursor).after.rest = [] := by
      intro hnil
      have hkind : (Scan.next t.policy mode {} t.cursor).token.kind = .endOfFile := by
        rw [Scan.next_endOfFile_iff, hnil, Scan.skipBlank]
      exact ⟨hkind, (Scan.next_of_endOfFile _ _ _ hkind).1⟩
    simp only [hsilent']
    rw [h.policy]
    have hahead : (t.queue []).ahead = [] ∧ (u.queue []).ahead = [] := ⟨ht, hu⟩
    refine .inl ⟨⟨h.policy, .here hm.after, ?_, ?_, h.silent, h.silent'⟩, ⟨t.cursor, rfl, ?_⟩,
      hm.inLine⟩
    · unfold Tokenizer.here
      simp only [hahead]
      exact KeptTwins.append htaken (.cons h.cursor hm.token hm.inLine hended .nil)
    · simp only [hahead]
      exact .nil
    · unfold Tokenizer.here
      simp only [hahead]
      exact hm.token
  · refine .inr ⟨hk.1, ht, ?_, h.silent.1⟩
    cases hk.2 with
    | brace kind after => exact .brace kind after
    | key kind isLiteral after => exact .key kind isLiteral after

theorem Twins.advance (h : t.Twins u) (mode : ReadMode) (hr : (t.advance mode {}).2.reports = []) :
    HandsTwins t (t.advance mode {}).1 (u.advance mode {}).1 (t.advance mode {}).2
        (u.advance mode {}).2
      ∨ mode = .key ∧ ClosesObject (t.advance mode {}).1 (t.advance mode {}).2 := by
  have htaken := h.taken
  have hahead := h.ahead
  generalize ht : t.ahead = kept at hahead
  generalize hu : u.ahead = kept' at hahead
  cases hahead with
  | nil => exact h.advance_read ht hu mode hr
  | @cons e e' es es' place token inLine ended tail =>
    unfold Tokenizer.here at htaken
    unfold Tokenizer.advance
    simp only [ht, hu] at htaken ⊢
    have hone : KeptTwins (firstPlace t.cursor es) (firstPlace u.cursor es') [e] [e'] :=
      .cons place token inLine ended .nil
    refine .inl ⟨⟨h.policy, h.cursor, ?_, tail, h.silent, h.silent'⟩, ⟨e.2, rfl, token⟩, inLine⟩
    exact KeptTwins.append htaken hone

theorem next_eq_advance {skipBreaks : Bool} {mode : ReadMode} {operators : OperatorTable}
    (h : skipBreaks = true → (t.advance mode operators).1.kind ≠ .lineBreak) :
    t.next skipBreaks mode operators = ((t.advance mode operators).1,
      { (t.advance mode operators).2 with lastStart := (t.advance mode operators).1.start }) := by
  unfold Tokenizer.next
  cases skipBreaks with
  | false => rfl
  | true => simp only [if_true, remaining, nextPastBreaks, if_neg (h rfl)]

theorem Twins.next (h : t.Twins u) (skipBreaks : Bool) (mode : ReadMode)
    (hr : (t.next skipBreaks mode {}).2.reports = []) :
    HandsTwins t (t.next skipBreaks mode {}).1 (u.next skipBreaks mode {}).1
        (t.next skipBreaks mode {}).2 (u.next skipBreaks mode {}).2
      ∨ mode = .key ∧ ClosesObject (t.next skipBreaks mode {}).1 (t.next skipBreaks mode {}).2 := by
  rw [next_eq_advance fun _ => h.inLine mode] at hr ⊢
  refine (h.advance mode hr).imp (fun hm => ?_) fun hk => ?_
  · obtain ⟨place, htaken, htoken⟩ := hm.taken
    rw [next_eq_advance fun _ => htoken.inLine hm.inLine]
    have htwins := hm.twins
    refine ⟨?_, ⟨place, htaken, htoken⟩, hm.inLine⟩
    exact ⟨htwins.policy, htwins.cursor, htwins.taken, htwins.ahead, htwins.silent, htwins.silent'⟩
  · exact ⟨hk.1, hk.2.ahead, hk.2.closes, hk.2.reports⟩

/-! ## The end of the text -/

theorem next_bracket (hahead : t.ahead = [])
    (hlast : (skipBlank t.cursor.pos t.cursor.rest).1.rest = ['}']) (skipBreaks : Bool)
    (mode : ReadMode) (operators : OperatorTable) :
    ∃ start, (t.next skipBreaks mode operators).1 = .sign .rightBrace start := by
  have hadvance : ∃ start, (t.advance mode operators).1 = .sign .rightBrace start := by
    unfold Tokenizer.advance
    simp only [hahead]
    refine ⟨(skipBlank t.cursor.pos t.cursor.rest).1.pos, ?_⟩
    simp only [Scan.next, lexeme, hlast]
    rfl
  obtain ⟨start, htoken⟩ := hadvance
  rw [next_eq_advance fun _ => by simp [htoken, Token.sign]]
  exact ⟨start, htoken⟩

/-- All of the text has been read; its end may be handed out again. -/
structure Over (t : Tokenizer) : Prop where
  ahead : ∀ e ∈ t.ahead, e.1.kind = .endOfFile
  rest : t.cursor.rest = []

theorem KeptTwins.isOver (h : KeptTwins last last' es es') (hn : (firstPlace last es).rest = []) :
    last.rest = [] ∧ (∀ e ∈ es, e.1.kind = .endOfFile) ∧ ∀ e ∈ es', e.1.kind = .endOfFile := by
  induction h with
  | nil => exact ⟨hn, by simp, by simp⟩
  | @cons e e' es es' place token inLine ended _ ih =>
    obtain ⟨hkind, hnext⟩ := ended hn
    obtain ⟨hlast, hes, hes'⟩ := ih hnext
    have hkind' : e'.1.kind = .endOfFile := by
      cases token with
      | alike kind => rw [kind, hkind]
      | spoilt kind => rw [kind, hkind]
      | closers kinds => exact absurd (hkind.symm.trans kinds.1) (by decide)
    exact ⟨hlast, List.forall_mem_cons.mpr ⟨hkind, hes⟩, List.forall_mem_cons.mpr ⟨hkind', hes'⟩⟩

theorem Twins.isOver (h : t.Twins u) (hn : t.here.rest = []) : t.Over ∧ u.Over := by
  obtain ⟨hrest, hes, hes'⟩ := h.ahead.isOver hn
  exact ⟨⟨hes, hrest⟩, ⟨hes', h.cursor.nil_of hrest⟩⟩

theorem Tiles.isOver {last : Cursor} (h : Tiles last es) (hn : (firstPlace last es).rest = []) :
    last.rest = [] ∧ ∀ e ∈ es, e.1.kind = .endOfFile := by
  induction es with
  | nil => exact ⟨hn, by simp⟩
  | cons e es ih =>
    obtain ⟨-, hprogress, hended, htail⟩ := h
    have hrest : e.2.rest = [] := hn
    have hkind : e.1.kind = .endOfFile :=
      Decidable.byContradiction fun hk => absurd (hprogress hk) (by simp [hrest])
    obtain ⟨hlast, hes⟩ := ih htail (hended hkind).1
    exact ⟨hlast, List.forall_mem_cons.mpr ⟨hkind, hes⟩⟩

theorem OnText.isOver {text : List Char} (h : t.OnText text) (hn : t.here.rest = []) : t.Over := by
  obtain ⟨hrest, hahead⟩ := ((tiles_append _ _ _).mp h.tiles).2.isOver hn
  exact ⟨hahead, hrest⟩

theorem ClosesObject.isOver {a : Token} (h : ClosesObject a t) (ha : a.kind = .rightBrace) :
    t.Over := by
  refine ⟨by simp [h.ahead], ?_⟩
  cases h.closes with
  | brace _ after => exact after
  | key kind => exact absurd (ha.symm.trans kind) (by decide)

theorem Over.discard (h : t.Over) : t.discard.Over := ⟨h.ahead, h.rest⟩

theorem Over.next (h : t.Over) (skipBreaks : Bool) (mode : ReadMode) (operators : OperatorTable) :
    (t.next skipBreaks mode operators).1.kind = .endOfFile
      ∧ (t.next skipBreaks mode operators).2.Over
      ∧ (t.next skipBreaks mode operators).2.reports = t.reports := by
  have hadvance : (t.advance mode operators).1.kind = .endOfFile
      ∧ (t.advance mode operators).2.Over ∧ (t.advance mode operators).2.reports = t.reports := by
    obtain ⟨hahead, hrest⟩ := h
    unfold Tokenizer.advance
    cases ht : t.ahead with
    | cons e es =>
      rw [ht, List.forall_mem_cons] at hahead
      exact ⟨hahead.1, ⟨hahead.2, hrest⟩, rfl⟩
    | nil =>
      have hlexes : Lexes mode [] .endOfFile none [] operators := lexes_end mode
      have hend := hlexes t.policy t.cursor.pos
      rw [← hrest] at hend
      obtain ⟨⟨start, htoken⟩, hafter, hreports⟩ := hend
      simp only [htoken, hreports]
      refine ⟨trivial, ⟨?_, hafter.trans hrest⟩, rfl⟩
      simp only [queue_kept, ht]
      exact fun _ he => absurd he List.not_mem_nil
  rw [next_eq_advance fun _ => by rw [hadvance.1]; decide]
  exact ⟨hadvance.1, ⟨hadvance.2.1.ahead, hadvance.2.1.rest⟩, hadvance.2.2⟩

end Tokenizer

end ConfigScript
