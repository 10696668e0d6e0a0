import ConfigScript.Proofs.Token.Lexeme
import ConfigScript.Token.Tokenizer

/-! # Kept tokens lie side by side

The kept tokens of a tokenizer cover the text from the committed place to the place where reading
goes on: each begins where the one before it ended. Handing out, committing, replaying and giving
up tokens keeps it so, and the committed place never goes back. -/

namespace ConfigScript.Tokenizer

/-- The place at which the first of some kept tokens begins, or the last of them ended. -/
def firstPlace (last : Cursor) : List (Token × Cursor) → Cursor
  | [] => last
  | e :: _ => e.2

/-- Kept tokens up to a place: each ends where the next one begins. -/
def Tiles (last : Cursor) : List (Token × Cursor) → Prop
  | [] => True
  | e :: es =>
    e.2.Reaches (firstPlace last es)
      ∧ (e.1.kind ≠ .endOfFile → (firstPlace last es).rest.length < e.2.rest.length)
      ∧ (e.1.kind = .endOfFile → (firstPlace last es).rest = [] ∧ e.1.isLiteral = false)
      ∧ Tiles last es

/-- The place of the token that comes next. -/
def here (t : Tokenizer) : Cursor := firstPlace t.cursor t.ahead

/-- A tokenizer at work on a text. -/
structure OnText (cs : List Char) (t : Tokenizer) : Prop where
  begins : (Cursor.start cs).Reaches t.committed
  tiles : Tiles t.cursor (t.taken ++ t.ahead)

theorem firstPlace_cons (last : Cursor) (e : Token × Cursor) (es : List (Token × Cursor)) :
    firstPlace last (e :: es) = e.2 := rfl

theorem firstPlace_append (last : Cursor) (es fs : List (Token × Cursor)) :
    firstPlace last (es ++ fs) = firstPlace (firstPlace last fs) es := by
  cases es <;> rfl

theorem tiles_append (last : Cursor) (es fs : List (Token × Cursor)) :
    Tiles last (es ++ fs) ↔ Tiles (firstPlace last fs) es ∧ Tiles last fs := by
  induction es with
  | nil => simp [Tiles]
  | cons e es ih => simp only [List.cons_append, Tiles, firstPlace_append, ih, and_assoc]

theorem Tiles.reaches {last : Cursor} {es : List (Token × Cursor)} (h : Tiles last es) :
    (firstPlace last es).Reaches last := by
  induction es with
  | nil => exact .refl last
  | cons e es ih => exact h.1.trans (ih h.2.2.2)

theorem committed_eq (t : Tokenizer) : t.committed = firstPlace t.here t.taken := by
  unfold committed here
  rw [← firstPlace_append]
  cases t.taken ++ t.ahead <;> rfl

theorem OnText.committed_reaches_here {cs : List Char} {t : Tokenizer} (h : t.OnText cs) :
    t.committed.Reaches t.here := by
  rw [committed_eq]
  exact ((tiles_append t.cursor t.taken t.ahead).mp h.tiles).1.reaches

theorem onText_ofChars (policy : UnicodePolicy) (cs : List Char) : (ofChars policy cs).OnText cs :=
  ⟨.refl _, trivial⟩

/-- The places at which the kept tokens begin, and the place where reading goes on. -/
def places (t : Tokenizer) : List Cursor := (t.taken ++ t.ahead).map Prod.snd ++ [t.cursor]

theorem Tiles.reaches_mem {last : Cursor} {es : List (Token × Cursor)} (h : Tiles last es)
    {e : Token × Cursor} (he : e ∈ es) : (firstPlace last es).Reaches e.2 := by
  induction es with
  | nil => simp at he
  | cons f fs ih =>
    rcases List.mem_cons.mp he with rfl | he
    · exact .refl _
    · exact h.1.trans (ih h.2.2.2 he)

theorem OnText.places {cs : List Char} {t : Tokenizer} (h : t.OnText cs) {c : Cursor}
    (hc : c ∈ t.places) : c.rest = cs.drop c.pos ∧ c.pos ≤ cs.length := by
  have hf : t.committed = firstPlace t.cursor (t.taken ++ t.ahead) := by
    unfold committed
    cases t.taken ++ t.ahead <;> rfl
  refine Cursor.Reaches.rest_eq (h.begins.trans ?_)
  rw [hf]
  rw [Tokenizer.places, List.mem_append, List.mem_singleton] at hc
  rcases hc with hc | rfl
  · obtain ⟨e, he, rfl⟩ := List.mem_map.mp hc
    exact h.tiles.reaches_mem he
  · exact h.tiles.reaches

/-! ## Committing and going back -/

theorem OnText.discard {cs : List Char} {t : Tokenizer} (h : t.OnText cs) :
    t.discard.OnText cs := by
  refine ⟨?_, ((tiles_append t.cursor t.taken t.ahead).mp h.tiles).2⟩
  rw [committed_eq]
  exact h.begins.trans h.committed_reaches_here

@[simp] theorem committed_discard (t : Tokenizer) : t.discard.committed = t.here := by
  rw [committed_eq]
  rfl

theorem OnText.replay {cs : List Char} {t : Tokenizer} (h : t.OnText cs) : t.replay.OnText cs :=
  ⟨by simpa only [committed, Tokenizer.replay, List.nil_append] using h.begins, h.tiles⟩

@[simp] theorem committed_replay (t : Tokenizer) : t.replay.committed = t.committed := rfl

@[simp] theorem here_replay (t : Tokenizer) : t.replay.here = t.committed := by
  rw [committed_eq, here, Tokenizer.replay]
  exact firstPlace_append t.cursor t.taken t.ahead

theorem OnText.reread {cs : List Char} {t : Tokenizer} (h : t.OnText cs) : t.reread.OnText cs :=
  ⟨h.begins, trivial⟩

@[simp] theorem committed_reread (t : Tokenizer) : t.reread.committed = t.committed := rfl

@[simp] theorem here_reread (t : Tokenizer) : t.reread.here = t.committed := rfl

/-! ## Handing out tokens -/

/-- What handing out a token changes: the committed place stays, the place of the next token moves
over the token, and a kept token is handed out again unless it is a line break to be skipped. -/
structure Takes (token : Token) (t u : Tokenizer) : Prop where
  committed : u.committed = t.committed
  forward : t.here.Reaches u.here
  progress : token.kind ≠ .endOfFile → u.here.rest.length < t.here.rest.length
  ended : token.kind = .endOfFile → u.here.rest = [] ∧ token.isLiteral = false
  replayed : ∀ e es, t.ahead = e :: es → e.1.kind ≠ .lineBreak → token = e.1

/-- What each added report keeps is kept when reports are queued. -/
theorem queue_induction {P : Tokenizer → Prop} {t : Tokenizer} {rs : List Report} (h : P t)
    (added : ∀ (u : Tokenizer), ∀ r ∈ rs, P u → P { u with
      reports := u.reports ++ [r], reported := (r.position, r.message) :: u.reported }) :
    P (t.queue rs) := by
  unfold queue
  induction rs generalizing t with
  | nil => exact h
  | cons r rs ih =>
    rw [List.foldl_cons]
    refine ih ?_ fun u s hs => added u s (List.mem_cons_of_mem r hs)
    simp only
    split
    · exact h
    · exact added t r List.mem_cons_self h

theorem queue_kept (t : Tokenizer) (rs : List Report) :
    (t.queue rs).taken = t.taken ∧ (t.queue rs).ahead = t.ahead ∧ (t.queue rs).cursor = t.cursor :=
  queue_induction (P := fun u => u.taken = t.taken ∧ u.ahead = t.ahead ∧ u.cursor = t.cursor)
    ⟨rfl, rfl, rfl⟩ fun _ _ _ h => h

theorem OnText.takes_ahead {cs : List Char} {t u : Tokenizer} (h : t.OnText cs)
    {e : Token × Cursor} (he : t.ahead = e :: u.ahead) (ht : u.taken = t.taken ++ [e])
    (hc : u.cursor = t.cursor) : u.OnText cs ∧ Takes e.1 t u := by
  obtain ⟨hb, hl⟩ := h
  have hk : u.taken ++ u.ahead = t.taken ++ t.ahead := by simp [he, ht]
  have hcom : u.committed = t.committed := by simp only [committed, hk, hc]
  have hh : t.here = e.2 := by rw [here, he, firstPlace_cons]
  have hu : u.here = firstPlace t.cursor u.ahead := by rw [here, hc]
  rw [← hk, ← hc] at hl
  refine ⟨⟨hcom ▸ hb, hl⟩, hcom, ?_, ?_, ?_, ?_⟩
  all_goals
    rw [ht, List.append_assoc, List.singleton_append, tiles_append, Tiles, hc, ← hu, ← hh] at hl
    obtain ⟨-, hr, hp, hn, -⟩ := hl
  · exact hr
  · exact hp
  · exact hn
  · intro f fs hf _
    rw [he] at hf
    exact congrArg Prod.fst (List.cons.inj hf).1

theorem OnText.takes_read {cs : List Char} {t u : Tokenizer} (h : t.OnText cs) {token : Token}
    (he : t.ahead = []) (hu : u.ahead = []) (ht : u.taken = t.taken ++ [(token, t.cursor)])
    (hr : t.cursor.Reaches u.cursor)
    (hp : token.kind ≠ .endOfFile → u.cursor.rest.length < t.cursor.rest.length)
    (hn : token.kind = .endOfFile → u.cursor.rest = [] ∧ token.isLiteral = false) :
    u.OnText cs ∧ Takes token t u := by
  obtain ⟨hb, hl⟩ := h
  have hh : t.here = t.cursor := by rw [here, he]; rfl
  have hv : u.here = u.cursor := by rw [here, hu]; rfl
  have hcom : u.committed = t.committed := by
    rw [committed_eq, committed_eq, ht, firstPlace_append, firstPlace_cons, hh]
  refine ⟨⟨hcom ▸ hb, ?_⟩, hcom, ?_, ?_, ?_, ?_⟩
  · rw [he, List.append_nil] at hl
    rw [hu, List.append_nil, ht, tiles_append]
    exact ⟨hl, hr, hp, hn, trivial⟩
  · rw [hh, hv]
    exact hr
  · rw [hh, hv]
    exact hp
  · rw [hv]
    exact hn
  · intro f fs hf
    rw [he] at hf
    cases hf

theorem advance_onText {cs : List Char} {t : Tokenizer} (h : t.OnText cs) (mode : ReadMode)
    {operators : OperatorTable} (ho : operators.Valid) :
    (t.advance mode operators).2.OnText cs
      ∧ Takes (t.advance mode operators).1 t (t.advance mode operators).2 := by
  unfold advance
  split
  · rename_i e es he
    exact h.takes_ahead he rfl rfl
  · rename_i he
    exact h.takes_read he ((queue_kept t _).2.1.trans he) rfl (Scan.next_reaches ..)
      (Scan.next_length_lt _ _ ho.spelled) (Scan.next_of_endOfFile _ _ _)

theorem Takes.skip {token final : Token} {t u v : Tokenizer} (h : Takes token t u)
    (hl : token.kind = .lineBreak) (g : Takes final u v) : Takes final t v := by
  have hp := h.progress (by rw [hl]; decide)
  refine ⟨g.committed.trans h.committed, h.forward.trans g.forward, fun _ => ?_, g.ended, ?_⟩
  · exact Nat.lt_of_le_of_lt g.forward.length_le hp
  · intro e es he hk
    rw [h.replayed e es he hk] at hl
    exact absurd hl hk

theorem nextPastBreaks_onText {cs : List Char} {t : Tokenizer} (h : t.OnText cs) (mode : ReadMode)
    {operators : OperatorTable} (ho : operators.Valid) (n : Nat) :
    (nextPastBreaks mode operators n t).2.OnText cs
      ∧ Takes (nextPastBreaks mode operators n t).1 t (nextPastBreaks mode operators n t).2 := by
  induction n generalizing t with
  | zero => exact advance_onText h mode ho
  | succ n ih =>
    obtain ⟨hu, ht⟩ := advance_onText h mode ho
    rw [nextPastBreaks]
    simp only
    split
    · rename_i hl
      obtain ⟨hv, hg⟩ := ih hu
      exact ⟨hv, ht.skip hl hg⟩
    · exact ⟨hu, ht⟩

theorem next_onText {cs : List Char} {t : Tokenizer} (h : t.OnText cs) (skipBreaks : Bool)
    (mode : ReadMode) {operators : OperatorTable} (ho : operators.Valid) :
    (t.next skipBreaks mode operators).2.OnText cs
      ∧ Takes (t.next skipBreaks mode operators).1 t (t.next skipBreaks mode operators).2 := by
  have hs := nextPastBreaks_onText h mode ho t.remaining
  have ha := advance_onText h mode ho
  unfold next
  cases skipBreaks with
  | true => exact ⟨⟨hs.1.1, hs.1.2⟩, ⟨hs.2.1, hs.2.2, hs.2.3, hs.2.4, hs.2.5⟩⟩
  | false => exact ⟨⟨ha.1.1, ha.1.2⟩, ⟨ha.2.1, ha.2.2, ha.2.3, ha.2.4, ha.2.5⟩⟩

theorem next_taken (t : Tokenizer) (mode : ReadMode) (operators : OperatorTable) :
    ∃ c, (t.next false mode operators).2.taken =
      t.taken ++ [((t.next false mode operators).1, c)] := by
  unfold next
  simp only [Bool.false_eq_true, if_false]
  unfold advance
  split
  · rename_i e es _
    exact ⟨e.2, rfl⟩
  · exact ⟨t.cursor, rfl⟩

theorem advance_remaining_lt {t : Tokenizer} (mode : ReadMode) {operators : OperatorTable}
    (ho : operators.Spelled) (hl : (t.advance mode operators).1.kind = .lineBreak) :
    (t.advance mode operators).2.remaining < t.remaining := by
  unfold advance at hl ⊢
  unfold remaining
  split
  · rename_i e es he
    simp only [he, List.length_cons]
    omega
  · rename_i he
    simp only [he] at hl
    have hp := Scan.next_length_lt t.policy mode ho (c := t.cursor) (by rw [hl]; decide)
    simp only [queue_kept, he, List.length_nil]
    omega

theorem nextPastBreaks_ne_lineBreak {t : Tokenizer} (mode : ReadMode) {operators : OperatorTable}
    (ho : operators.Spelled) {n : Nat} (hn : t.remaining ≤ n) :
    (nextPastBreaks mode operators n t).1.kind ≠ .lineBreak := by
  induction n generalizing t with
  | zero => simp [remaining] at hn
  | succ n ih =>
    rw [nextPastBreaks]
    simp only
    split
    · rename_i hl
      have hlt := advance_remaining_lt mode ho hl
      exact ih (by omega)
    · rename_i hl
      exact hl

theorem next_ne_lineBreak (t : Tokenizer) (mode : ReadMode) {operators : OperatorTable}
    (ho : operators.Spelled) : (t.next true mode operators).1.kind ≠ .lineBreak :=
  nextPastBreaks_ne_lineBreak mode ho (Nat.le_refl _)

end ConfigScript.Tokenizer
