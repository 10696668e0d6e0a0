import ConfigScript.Proofs.Token.Kept
import ConfigScript.Source

/-! # Tokens tile the text

Whatever a tokenizer is asked to do, the tokens that it has committed and those that it keeps cover
the text from its start to the place where reading goes on. Each was read from the place where the
one before it ended. Text that is given up is read again as if for the first time. -/

namespace ConfigScript.Tokenizer

variable {policy : UnicodePolicy} {cs : List Char} {token : Token} {place c d e : Cursor}
  {es fs gone : List (Token × Cursor)} {t u v : Tokenizer}

/-! ## Tilings -/

/-- A token is read from one place to another, in some mode and with some operators. -/
def ReadFrom (policy : UnicodePolicy) (token : Token) (c d : Cursor) : Prop :=
  ∃ (mode : ReadMode) (operators : OperatorTable), operators.Spelled
    ∧ (Scan.next policy mode operators c).token = token
    ∧ (Scan.next policy mode operators c).after = d

/-- Tokens lie side by side from one place to another, each with the place that it was read from. -/
inductive Tiling (policy : UnicodePolicy) : Cursor → List (Token × Cursor) → Cursor → Prop
  | nil (c : Cursor) : Tiling policy c [] c
  | cons {token : Token} {c d e : Cursor} {es : List (Token × Cursor)}
    (first : ReadFrom policy token c d) (rest : Tiling policy d es e) :
    Tiling policy c ((token, c) :: es) e

/-- What a token takes of the text. It begins where the blanks and comments end. Only the end of
the file takes no more than these, and nothing else stands there. -/
structure Covers (token : Token) (c d : Cursor) : Prop where
  blank : c.Reaches (Scan.skipBlank c.pos c.rest).1
  start : token.start = (Scan.skipBlank c.pos c.rest).1.pos
  within : (Scan.skipBlank c.pos c.rest).1.Reaches d
  text : token.kind ≠ .endOfFile → token.start < d.pos
  ended : token.kind = .endOfFile ↔ (Scan.skipBlank c.pos c.rest).1.rest = []

theorem ReadFrom.covers (h : ReadFrom policy token c d) : Covers token c d := by
  obtain ⟨mode, operators, ho, rfl, rfl⟩ := h
  exact ⟨Scan.skipBlank_reaches c.pos c.rest, Scan.next_start policy mode operators c,
    Scan.lexeme_reaches policy mode operators _, Scan.next_start_lt policy mode ho,
    Scan.next_endOfFile_iff policy mode operators c⟩

theorem ReadFrom.reaches (h : ReadFrom policy token c d) : c.Reaches d :=
  h.covers.blank.trans h.covers.within

theorem Tiling.reaches (h : Tiling policy c es d) : c.Reaches d := by
  induction h with
  | nil c => exact .refl c
  | cons first _ ih => exact first.reaches.trans ih

theorem Tiling.append (h : Tiling policy c es d) (g : Tiling policy d fs e) :
    Tiling policy c (es ++ fs) e := by
  induction h with
  | nil c => exact g
  | cons first _ ih => exact .cons first (ih g)

theorem Tiling.split (h : Tiling policy c (es ++ fs) e) :
    ∃ d, Tiling policy c es d ∧ Tiling policy d fs e := by
  induction es generalizing c with
  | nil => exact ⟨c, .nil c, h⟩
  | cons x es ih =>
    cases h with
    | cons first rest =>
      obtain ⟨d, hes, hfs⟩ := ih rest
      exact ⟨d, .cons first hes, hfs⟩

theorem Tiling.firstPlace_eq (h : Tiling policy c es d) : firstPlace d es = c := by
  cases h with
  | nil => rfl
  | cons => rfl

theorem Tiling.readFrom (h : Tiling policy c es d) (hm : (token, place) ∈ es) :
    ∃ after, ReadFrom policy token place after := by
  induction h with
  | nil => simp at hm
  | @cons first c d _ _ hread _ ih =>
    rcases List.mem_cons.mp hm with he | hm
    · obtain ⟨rfl, rfl⟩ := Prod.mk.inj he
      exact ⟨d, hread⟩
    · exact ih hm

/-! ## What a tokenizer is asked to do -/

inductive Action
  | next (skipBreaks : Bool) (mode : ReadMode) (operators : OperatorTable)
  | discard
  | reset (giveUp : Bool)
  | takeReports

/-- The operators that tokens are read with are spelled with something. -/
def Action.Spelled : Action → Prop
  | .next _ _ operators => operators.Spelled
  | _ => True

/-- The kept tokens, those handed out first. -/
def kept (t : Tokenizer) : List (Token × Cursor) := t.taken ++ t.ahead

/-- How many of the kept tokens have been handed out. -/
def index (t : Tokenizer) : Nat := t.taken.length

def perform (t : Tokenizer) : Action → Tokenizer
  | .next skipBreaks mode operators => (t.next skipBreaks mode operators).2
  | .discard => t.discard
  | .reset giveUp => if giveUp then t.reread else t.replay
  | .takeReports => t.takeReports.2

/-- The tokens that an action commits. -/
def committedBy (t : Tokenizer) : Action → List (Token × Cursor)
  | .next _ _ _ => []
  | .discard => t.taken
  | .reset _ => []
  | .takeReports => []

def after (t : Tokenizer) (actions : List Action) : Tokenizer := actions.foldl perform t

/-- The tokens that some actions commit, in order. -/
def committedAlong (t : Tokenizer) : List Action → List (Token × Cursor)
  | [] => []
  | a :: actions => t.committedBy a ++ (t.perform a).committedAlong actions

/-- A tokenizer that begins to read a text at some position. -/
def startingAt (policy : UnicodePolicy) (cs : List Char) (pos : Nat) : Tokenizer :=
  { policy, cursor := (Cursor.start cs).advance pos }

/-! ## Handing out tokens -/

theorem committed_eq_firstPlace (t : Tokenizer) : t.committed = firstPlace t.cursor t.kept := by
  unfold committed kept
  cases t.taken ++ t.ahead <;> rfl

/-- The second tokenizer keeps what the first one keeps, and what it read since. -/
def Prolongs (t u : Tokenizer) : Prop :=
  u.policy = t.policy ∧ ∃ es, u.kept = t.kept ++ es ∧ Tiling t.policy t.cursor es u.cursor

theorem Prolongs.trans (h : t.Prolongs u) (g : u.Prolongs v) : t.Prolongs v := by
  obtain ⟨hp, es, hk, ht⟩ := h
  obtain ⟨gp, fs, gk, gt⟩ := g
  rw [hp] at gt
  exact ⟨gp.trans hp, es ++ fs, by rw [gk, hk, List.append_assoc], ht.append gt⟩

theorem Prolongs.committed_eq (h : t.Prolongs u) : u.committed = t.committed := by
  obtain ⟨-, es, hk, ht⟩ := h
  rw [committed_eq_firstPlace, committed_eq_firstPlace, hk, firstPlace_append, ht.firstPlace_eq]

theorem queue_policy (t : Tokenizer) (rs : List Report) : (t.queue rs).policy = t.policy :=
  queue_induction (P := fun u => u.policy = t.policy) rfl fun _ _ _ h => h

theorem advance_prolongs (t : Tokenizer) (mode : ReadMode) {operators : OperatorTable}
    (ho : operators.Spelled) : t.Prolongs (t.advance mode operators).2 := by
  unfold advance
  split
  · rename_i e es he
    have hk : (t.taken ++ [e]) ++ es = t.taken ++ t.ahead := by simp [he]
    exact ⟨rfl, [], by simpa [kept] using hk, .nil _⟩
  · rename_i he
    have hread : ReadFrom t.policy (Scan.next t.policy mode operators t.cursor).token t.cursor
        (Scan.next t.policy mode operators t.cursor).after := ⟨mode, operators, ho, rfl, rfl⟩
    refine ⟨queue_policy t _, _, ?_, .cons hread (.nil _)⟩
    simp [kept, queue_kept, he]

theorem advance_taken (t : Tokenizer) (mode : ReadMode) (operators : OperatorTable) :
    ∃ place, (t.advance mode operators).2.taken
      = t.taken ++ [((t.advance mode operators).1, place)] := by
  unfold advance
  split
  · rename_i e es _
    exact ⟨e.2, rfl⟩
  · exact ⟨t.cursor, rfl⟩

theorem nextPastBreaks_prolongs (t : Tokenizer) (mode : ReadMode) {operators : OperatorTable}
    (ho : operators.Spelled) (n : Nat) : t.Prolongs (nextPastBreaks mode operators n t).2 := by
  induction n generalizing t with
  | zero => exact advance_prolongs t mode ho
  | succ n ih =>
    have ht := advance_prolongs t mode ho
    rw [nextPastBreaks]
    simp only
    split
    · exact ht.trans (ih _)
    · exact ht

theorem nextPastBreaks_taken (t : Tokenizer) (mode : ReadMode) (operators : OperatorTable)
    (n : Nat) : ∃ skipped place, (nextPastBreaks mode operators n t).2.taken
        = t.taken ++ skipped ++ [((nextPastBreaks mode operators n t).1, place)]
      ∧ ∀ x ∈ skipped, x.1.kind = .lineBreak := by
  induction n generalizing t with
  | zero =>
    obtain ⟨place, hp⟩ := advance_taken t mode operators
    exact ⟨[], place, by simpa [nextPastBreaks] using hp, by simp⟩
  | succ n ih =>
    obtain ⟨place, hp⟩ := advance_taken t mode operators
    rw [nextPastBreaks]
    simp only
    split
    · rename_i hl
      obtain ⟨skipped, last, hs, hbreaks⟩ := ih (t.advance mode operators).2
      refine ⟨((t.advance mode operators).1, place) :: skipped, last, ?_, ?_⟩
      · rw [hs, hp, List.append_assoc t.taken, List.singleton_append]
      · intro x hx
        rcases List.mem_cons.mp hx with rfl | hx
        · exact hl
        · exact hbreaks x hx
    · exact ⟨[], place, by simpa using hp, by simp⟩

theorem next_prolongs (t : Tokenizer) (skipBreaks : Bool) (mode : ReadMode)
    {operators : OperatorTable} (ho : operators.Spelled) :
    t.Prolongs (t.next skipBreaks mode operators).2 := by
  unfold next
  cases skipBreaks with
  | true => exact nextPastBreaks_prolongs t mode ho t.remaining
  | false => exact advance_prolongs t mode ho

theorem next_taken_last (t : Tokenizer) (skipBreaks : Bool) (mode : ReadMode)
    {operators : OperatorTable} (ho : operators.Spelled) :
    ∃ skipped place, (t.next skipBreaks mode operators).2.taken
        = t.taken ++ skipped ++ [((t.next skipBreaks mode operators).1, place)]
      ∧ (∀ x ∈ skipped, x.1.kind = .lineBreak)
      ∧ (skipBreaks = true → (t.next skipBreaks mode operators).1.kind ≠ .lineBreak)
      ∧ (skipBreaks = false → skipped = []) := by
  cases skipBreaks with
  | true =>
    obtain ⟨skipped, place, ht, hs⟩ := nextPastBreaks_taken t mode operators t.remaining
    exact ⟨skipped, place, ht, hs, fun _ => next_ne_lineBreak t mode ho, nofun⟩
  | false =>
    obtain ⟨place, ht⟩ := next_taken t mode operators
    exact ⟨[], place, by simpa using ht, by simp, nofun, fun _ => rfl⟩

/-! ## Reading again -/

/-- Two tokenizers that hand out the same tokens from here on. -/
structure Alike (t u : Tokenizer) : Prop where
  policy : t.policy = u.policy
  ahead : t.ahead = u.ahead
  cursor : t.cursor = u.cursor

theorem Alike.advance (h : Alike t u) (mode : ReadMode) (operators : OperatorTable) :
    (t.advance mode operators).1 = (u.advance mode operators).1
      ∧ Alike (t.advance mode operators).2 (u.advance mode operators).2 := by
  unfold Tokenizer.advance
  rw [h.ahead]
  split
  · exact ⟨rfl, h.policy, rfl, h.cursor⟩
  · rename_i he
    rw [h.policy, h.cursor]
    refine ⟨rfl, ?_, ?_, rfl⟩
    · simp [queue_policy, h.policy]
    · simp [queue_kept, h.ahead]

theorem Alike.nextPastBreaks (h : Alike t u) (mode : ReadMode) (operators : OperatorTable)
    (n : Nat) : (nextPastBreaks mode operators n t).1 = (nextPastBreaks mode operators n u).1 := by
  induction n generalizing t u with
  | zero => exact (h.advance mode operators).1
  | succ n ih =>
    obtain ⟨htoken, hafter⟩ := h.advance mode operators
    rw [Tokenizer.nextPastBreaks, Tokenizer.nextPastBreaks]
    simp only [htoken]
    split
    · exact ih hafter
    · rfl

theorem Alike.next (h : Alike t u) (skipBreaks : Bool) (mode : ReadMode)
    (operators : OperatorTable) :
    (t.next skipBreaks mode operators).1 = (u.next skipBreaks mode operators).1 := by
  unfold Tokenizer.next
  cases skipBreaks with
  | true =>
    have hr : t.remaining = u.remaining := by rw [remaining, remaining, h.ahead, h.cursor]
    simp only [if_true, hr]
    exact h.nextPastBreaks mode operators u.remaining
  | false => exact (h.advance mode operators).1

/-! ## Along some actions -/

/-- The committed and the kept tokens tile the text up to where reading goes on. -/
def TilesText (policy : UnicodePolicy) (cs : List Char) (gone : List (Token × Cursor))
    (t : Tokenizer) : Prop :=
  t.policy = policy ∧ Tiling policy (Cursor.start cs) (gone ++ t.kept) t.cursor

theorem TilesText.split (h : TilesText policy cs gone t) :
    Tiling policy (Cursor.start cs) gone t.committed
      ∧ Tiling policy t.committed t.kept t.cursor := by
  obtain ⟨d, hgone, hkept⟩ := h.2.split
  rw [committed_eq_firstPlace, hkept.firstPlace_eq]
  exact ⟨hgone, hkept⟩

theorem TilesText.perform (h : TilesText policy cs gone t) {a : Action} (ha : a.Spelled) :
    TilesText policy cs (gone ++ t.committedBy a) (t.perform a)
      ∧ t.committed.Reaches (t.perform a).committed := by
  obtain ⟨hgone, hkept⟩ := h.split
  cases a with
  | next skipBreaks mode operators =>
    have hn : t.Prolongs (t.perform (.next skipBreaks mode operators)) :=
      next_prolongs t skipBreaks mode ha
    refine ⟨⟨hn.1.trans h.1, ?_⟩, hn.committed_eq ▸ .refl _⟩
    obtain ⟨-, es, hk, ht⟩ := hn
    rw [h.1] at ht
    rw [hk, committedBy, List.append_nil, ← List.append_assoc]
    exact h.2.append ht
  | discard =>
    obtain ⟨d, htaken, hahead⟩ := hkept.split
    have hd : t.discard.committed = d := by
      rw [committed_eq_firstPlace]
      exact hahead.firstPlace_eq
    refine ⟨⟨h.1, ?_⟩, ?_⟩
    · exact (hgone.append htaken).append hahead
    · rw [Tokenizer.perform, hd]
      exact htaken.reaches
  | reset giveUp =>
    cases giveUp with
    | true =>
      refine ⟨⟨h.1, ?_⟩, .refl _⟩
      exact (hgone.append (.nil _)).append (.nil _)
    | false =>
      refine ⟨⟨h.1, ?_⟩, .refl _⟩
      rw [committedBy, List.append_nil]
      exact h.2
  | takeReports =>
    refine ⟨⟨h.1, ?_⟩, .refl _⟩
    rw [committedBy, List.append_nil]
    exact h.2

theorem TilesText.after (h : TilesText policy cs gone t) {actions : List Action}
    (ha : ∀ a ∈ actions, a.Spelled) :
    TilesText policy cs (gone ++ t.committedAlong actions) (t.after actions)
      ∧ t.committed.Reaches (t.after actions).committed := by
  induction actions generalizing t gone with
  | nil => exact ⟨(List.append_nil gone).symm ▸ h, .refl _⟩
  | cons a actions ih =>
    obtain ⟨hone, hreach⟩ := h.perform (ha a List.mem_cons_self)
    obtain ⟨hall, hreaches⟩ := ih hone fun b hb => ha b (List.mem_cons_of_mem a hb)
    rw [List.append_assoc] at hall
    exact ⟨hall, hreach.trans hreaches⟩

theorem tilesText_ofChars (policy : UnicodePolicy) (cs : List Char) :
    TilesText policy cs [] (ofChars policy cs) := ⟨rfl, .nil _⟩

/-- What text is given up is read again as by a tokenizer that begins there. -/
theorem TilesText.reread_alike (h : TilesText policy cs gone t) :
    Alike t.reread (startingAt policy cs t.committed.pos) := by
  have hplace := h.split.1.reaches.rest_eq
  refine ⟨h.1, rfl, ?_⟩
  simp only [Tokenizer.reread, startingAt, Cursor.advance, Cursor.start, Nat.zero_add, ← hplace.1]

/-- The committed tokens tile the text up to the committed place, which never goes back, and the
kept ones from there on to the place where reading goes on, which stays within the text. Each token
holds a character beyond the blanks before it, but for the end of the file, which stands where
nothing else is left. A token that is handed out becomes the last one taken. After the kept tokens
are given up it is the one that a tokenizer hands out that begins at the committed place. -/
theorem tokens_tile (policy : UnicodePolicy) (source : Source) (actions : List Action)
    (ha : ∀ a ∈ actions, a.Spelled) :
    let t := (ofChars policy source.chars).after actions
    let gone := (ofChars policy source.chars).committedAlong actions
    t.index ≤ t.kept.length
      ∧ Tiling policy (Cursor.start source.chars) gone t.committed
      ∧ Tiling policy t.committed t.kept t.cursor
      ∧ (t.cursor.rest = source.chars.drop t.cursor.pos ∧ t.cursor.pos ≤ source.length)
      ∧ (∀ token place, (token, place) ∈ gone ++ t.kept →
        ∃ after, ReadFrom policy token place after ∧ Covers token place after)
      ∧ (∀ more : List Action, (∀ a ∈ more, a.Spelled) →
        t.committed.pos ≤ (t.after more).committed.pos)
      ∧ ∀ (skipBreaks : Bool) (mode : ReadMode) (operators : OperatorTable), operators.Spelled →
        (∃ skipped place, (t.next skipBreaks mode operators).2.taken
            = t.taken ++ skipped ++ [((t.next skipBreaks mode operators).1, place)]
          ∧ (∀ x ∈ skipped, x.1.kind = .lineBreak)
          ∧ (skipBreaks = true → (t.next skipBreaks mode operators).1.kind ≠ .lineBreak)
          ∧ (skipBreaks = false → skipped = []))
        ∧ (t.reread.next skipBreaks mode operators).1
          = ((startingAt policy source.chars t.committed.pos).next skipBreaks mode
            operators).1 := by
  intro t gone
  have h : TilesText policy source.chars gone t :=
    ((tilesText_ofChars policy source.chars).after ha).1
  obtain ⟨hgone, hkept⟩ := h.split
  have hplace := (hgone.reaches.trans hkept.reaches).rest_eq
  refine ⟨?_, hgone, hkept, hplace, fun token place hm => ?_, fun more hmore => ?_,
    fun skipBreaks mode operators ho => ⟨next_taken_last t skipBreaks mode ho, ?_⟩⟩
  · rw [index, kept, List.length_append]
    exact Nat.le_add_right _ _
  · obtain ⟨after, hread⟩ := h.2.readFrom hm
    exact ⟨after, hread, hread.covers⟩
  · obtain ⟨used, -, hpos⟩ := (h.after hmore).2
    omega
  · exact h.reread_alike.next skipBreaks mode operators

/-- Two words are read as one value, given up, and read again one by one, with a comment and an
operator between them. -/
theorem tokens_tile_given_up :
    let plus : Operator := ⟨"+", false, .binary, none, .plain, Fixity.defaultPriority .binary⟩
    let source := Source.ofText "a /* b */ +c"
    let actions : List Action := [.next true .value {}, .reset true, .next true .operation ⟨[plus]⟩,
      .next true .operation ⟨[plus]⟩, .reset false, .next true .operation ⟨[plus]⟩, .discard]
    let t := (ofChars .error source.chars).after actions
    let gone := (ofChars .error source.chars).committedAlong actions
    (∀ a ∈ actions, a.Spelled) ∧ OperatorTable.Spelled ⟨[plus]⟩
      ∧ Tiling .error (Cursor.start source.chars) gone t.committed
      ∧ Tiling .error t.committed t.kept t.cursor
      ∧ gone.map (Token.shown ∘ Prod.fst) = ["Word:0(a)"]
      ∧ t.kept.map (Token.shown ∘ Prod.fst) = ["Operator:10(+)"]
      ∧ (t.committed.pos, t.cursor.pos) = (1, 11)
      ∧ (t.reread.next true .value {}).1
        = ((startingAt .error source.chars 1).next true .value {}).1 := by
  intro plus source actions t gone
  have hplus : OperatorTable.Spelled ⟨[plus]⟩ := by simp [OperatorTable.Spelled, plus]
  have hempty : OperatorTable.Spelled {} := by simp [OperatorTable.Spelled]
  have ha : ∀ a ∈ actions, a.Spelled := by simp [actions, Action.Spelled, hplus, hempty]
  have hpos : (t.committed.pos, t.cursor.pos) = (1, 11) := by decide +kernel
  obtain ⟨-, hgone, hkept, -, -, -, hread⟩ := tokens_tile .error source actions ha
  have hagain := (hread true .value {} hempty).2
  rw [show t.committed.pos = 1 from congrArg Prod.fst hpos] at hagain
  exact ⟨ha, hplus, hgone, hkept, by decide +kernel, by decide +kernel, hpos, hagain⟩

end ConfigScript.Tokenizer
