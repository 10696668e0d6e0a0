import ConfigScript.Proofs.Token.Governed
import ConfigScript.Proofs.Token.Shortened
import ConfigScript.Proofs.Token.Tiling

/-! # Invalid escapes

Each invalid escape that is read is reported once, where its backslash stands, however often its
text is read. Nothing else is reported about escapes, and the text reads the same without the
backslash. -/

namespace ConfigScript

/-- A place in a text. -/
def Cursor.StandsIn (c : Cursor) (cs : List Char) : Prop := c.rest = cs.drop c.pos

theorem Cursor.Reaches.standsIn {c d : Cursor} {cs : List Char} (h : c.Reaches d)
    (hc : c.StandsIn cs) : d.StandsIn cs := by
  obtain ⟨used, hrest, hpos⟩ := h
  rw [StandsIn, hpos, ← List.drop_drop, ← hc, hrest, List.drop_left]

namespace Scan

open Cursor

variable {policy : UnicodePolicy} {step : List Char → Option Step}
  {read : List Char → Nat → List Char → Word} {b c start : Cursor} {cs : List Char}
  {mode : ReadMode} {operators : OperatorTable} {letter : Char} {pos : Nat} {r : Report}

/-! ## What a token reports -/

theorem mem_ownReports {r : Report} {pos : Nat} : r ∈ ownReports policy pos cs
    ↔ ∃ letter, invalidEscape? cs = some letter ∧ r ∈ escapeReports policy letter pos := by
  rw [ownReports]
  cases invalidEscape? cs with
  | none => simp
  | some letter => simp

theorem Follows.mem_reports (h : Follows policy step read) (r : Report) (blanks : List Char)
    (pos : Nat) (cs : List Char) : r ∈ invalidEscapes (read blanks pos cs).reports
      ↔ ∃ b letter, Comes step ⟨pos, cs⟩ b ∧ invalidEscape? b.rest = some letter
        ∧ r ∈ escapeReports policy letter b.pos := by
  cases hs : step cs with
  | none =>
    obtain ⟨n, hstops⟩ := h.stops hs
    obtain ⟨text, htext⟩ := hstops blanks
    rw [(htext pos).2.2]
    refine iff_of_false List.not_mem_nil ?_
    rintro ⟨b, letter, hb, hi, -⟩
    cases hb with
    | here => simp [h.invalid hi] at hs
    | on first => simp [first] at hs
  | some s =>
    obtain ⟨hpos, hle⟩ := h.used hs
    have hrest := h.mem_reports r (s.piece.pending blanks) (pos + s.used) (cs.drop s.used)
    rw [(h.goes hs blanks pos).reports, List.mem_append, mem_ownReports, hrest]
    constructor
    · rintro (⟨letter, hi, hr⟩ | ⟨b, letter, hb, hi, hr⟩)
      · exact ⟨_, letter, .here _, hi, hr⟩
      · exact ⟨b, letter, .on hs hb, hi, hr⟩
    · rintro ⟨b, letter, hb, hi, hr⟩
      cases hb with
      | here => exact .inl ⟨letter, hi, hr⟩
      | on first rest =>
        obtain rfl := Option.some.inj (hs.symm.trans first)
        exact .inr ⟨b, letter, rest, hi, hr⟩
termination_by cs.length
decreasing_by
  rw [List.length_drop]
  omega

theorem literalReader?_follows (policy : UnicodePolicy)
    (h : literalReader? mode operators c = some (step, start)) : c.Reaches start
      ∧ ∃ read, Follows policy step read
        ∧ (lexeme policy mode operators c).reports = (read [] start.pos start.rest).reports := by
  obtain ⟨pos, ch, cs, rfl, hs, hread⟩ := literalReader?_read h
  cases hread with
  | quoted hquote =>
    have hbackslash : ch ≠ '\\' := by
      rintro rfl
      exact absurd hquote (by decide)
    refine ⟨reaches_cons pos ch cs, _, quoted_follows policy hbackslash pos, ?_⟩
    rw [lexeme_cons, hs]
    simp only [if_pos hquote]
    rfl
  | operand hquote hop hmatch hnumber =>
    subst hop
    refine ⟨.refl _, _, word_follows policy _ _, ?_⟩
    rw [lexeme_operand pos hs hquote hmatch hnumber]
    rfl
  | word hquote hop =>
    refine ⟨.refl _, _, word_follows policy _ _, ?_⟩
    rw [lexeme_word operators pos hs hquote hop, ofWord]
    split <;> rfl

theorem lexeme_reports_nil (policy : UnicodePolicy)
    (h : literalReader? mode operators c = none) :
    (lexeme policy mode operators c).reports = [] := by
  obtain ⟨pos, cs⟩ := c
  cases cs with
  | nil => rw [lexeme_nil policy mode operators rfl]
  | cons ch cs =>
    rw [lexeme_cons]
    simp only [literalReader?] at h
    cases hs : sign? mode ch with
    | some kind => rfl
    | none =>
      simp only [hs] at h ⊢
      split at h
      · simp at h
      · rename_i hquote
        rw [if_neg hquote]
        split at h
        · rename_i hop
          rw [if_pos hop, term]
          split at h
          · simp at h
          · rename_i hterm
            split
            · rfl
            · rename_i hmatch
              split
              · rfl
              · rename_i hnumber
                exact absurd hnumber (hterm hmatch)
        · simp at h

/-- The reports of a token on escapes are those of the invalid escapes in its literal. -/
theorem lexeme_mem_reports (mode : ReadMode) (operators : OperatorTable) (c : Cursor) (r : Report) :
    r ∈ invalidEscapes (lexeme policy mode operators c).reports
      ↔ ∃ b letter, LiteralComes mode operators c b letter
        ∧ r ∈ escapeReports policy letter b.pos := by
  cases hreader : literalReader? mode operators c with
  | none =>
    rw [lexeme_reports_nil policy hreader]
    refine iff_of_false List.not_mem_nil ?_
    rintro ⟨b, letter, ⟨step, start, hreader', -⟩, -⟩
    simp [hreader] at hreader'
  | some found =>
    obtain ⟨step, start⟩ := found
    obtain ⟨-, read, hfollows, hreports⟩ := literalReader?_follows policy hreader
    rw [hreports, hfollows.mem_reports]
    constructor
    · rintro ⟨b, letter, hb, hi, hr⟩
      exact ⟨b, letter, ⟨step, start, hreader, hb, hi⟩, hr⟩
    · rintro ⟨b, letter, ⟨step', start', hreader', hb, hi⟩, hr⟩
      obtain ⟨rfl, rfl⟩ := Prod.mk.inj (Option.some.inj (hreader.symm.trans hreader'))
      exact ⟨b, letter, hb, hi, hr⟩

theorem next_mem_reports (mode : ReadMode) (operators : OperatorTable) (c : Cursor) (r : Report) :
    r ∈ invalidEscapes (next policy mode operators c).reports
      ↔ ∃ letter pos, ReadsInvalid mode operators c letter pos
        ∧ r ∈ escapeReports policy letter pos := by
  rw [next, invalidEscapes_append, skipBlank_invalidEscapes, List.nil_append, lexeme_mem_reports]
  constructor
  · rintro ⟨b, letter, hb, hr⟩
    exact ⟨letter, b.pos, ⟨b, hb, rfl⟩, hr⟩
  · rintro ⟨letter, pos, ⟨b, hb, rfl⟩, hr⟩
    exact ⟨b, letter, hb, hr⟩

theorem ReadsInvalid.stands (h : ReadsInvalid mode operators c letter pos)
    (hc : c.StandsIn cs) : invalidEscape? (cs.drop pos) = some letter := by
  obtain ⟨b, ⟨step, start, hreader, hb, hi⟩, rfl⟩ := h
  obtain ⟨hstart, read, hfollows, -⟩ := literalReader?_follows .error hreader
  have hreaches := (skipBlank_reaches c.pos c.rest).trans (hstart.trans (hfollows.reaches hb))
  rw [← hreaches.standsIn hc]
  exact hi

theorem position_of_mem_escapeReports (h : r ∈ escapeReports policy letter pos) :
    r.position = some pos := by
  cases policy with
  | error => exact List.mem_singleton.mp h ▸ rfl
  | warn => exact List.mem_singleton.mp h ▸ rfl
  | ignore => exact absurd h List.not_mem_nil

theorem readsInvalid_iff (hc : c.StandsIn cs) : ReadsInvalid mode operators c letter pos
    ↔ invalidEscape? (cs.drop pos) = some letter
      ∧ ∃ r ∈ invalidEscapes (next .error mode operators c).reports, r.position = some pos := by
  constructor
  · intro h
    refine ⟨h.stands hc, _, (next_mem_reports mode operators c _).mpr
      ⟨letter, pos, h, List.mem_cons_self⟩, rfl⟩
  · rintro ⟨hstands, r, hr, hpos⟩
    obtain ⟨letter', pos', h, hr⟩ := (next_mem_reports mode operators c r).mp hr
    obtain rfl : pos' = pos :=
      Option.some.inj ((position_of_mem_escapeReports hr).symm.trans hpos)
    obtain rfl : letter' = letter := Option.some.inj ((h.stands hc).symm.trans hstands)
    exact h

theorem escapeReports_length (policy : UnicodePolicy) (letter : Char) (pos : Nat) :
    (escapeReports policy letter pos).length = if policy = .ignore then 0 else 1 := by
  cases policy <;> rfl

theorem escapeReports_nodup (policy : UnicodePolicy) (letter : Char) (pos : Nat) :
    (escapeReports policy letter pos).Nodup := by
  cases policy <;> simp [escapeReports]

theorem eq_of_mem_escapeReports {s : Report} (hr : r ∈ escapeReports policy letter pos)
    (hs : s ∈ escapeReports policy letter pos) : r = s := by
  cases policy with
  | error => exact (List.mem_singleton.mp hr).trans (List.mem_singleton.mp hs).symm
  | warn => exact (List.mem_singleton.mp hr).trans (List.mem_singleton.mp hs).symm
  | ignore => exact absurd hr List.not_mem_nil

end Scan

/-! ## What is queued -/

def Report.key (r : Report) : Option Nat × String := (r.position, r.message)

namespace Tokenizer

variable {policy : UnicodePolicy} {cs : List Char} {gone : List Report} {t : Tokenizer}

/-- What was reported so far is what is queued and what was taken before, and each is one report. -/
structure ReportsOnce (gone : List Report) (t : Tokenizer) : Prop where
  once : ((gone ++ t.reports).map Report.key).Nodup
  reported (key : Option Nat × String) :
    key ∈ t.reported ↔ key ∈ (gone ++ t.reports).map Report.key

theorem queue_reported {r : Report} (h : r.key ∈ t.reported) : t.queue [r] = t :=
  if_pos (List.contains_iff_mem.mpr h)

theorem queue_new {r : Report} (h : r.key ∉ t.reported) :
    t.queue [r] = { t with reports := t.reports ++ [r], reported := r.key :: t.reported } :=
  if_neg (mt List.contains_iff_mem.mp h)

theorem ReportsOnce.queue_one (h : ReportsOnce gone t) (r : Report) :
    ReportsOnce gone (t.queue [r]) ∧ r.key ∈ (gone ++ (t.queue [r]).reports).map Report.key := by
  by_cases hr : r.key ∈ t.reported
  · rw [queue_reported hr]
    exact ⟨h, (h.reported r.key).mp hr⟩
  · have hnew : r.key ∉ (gone ++ t.reports).map Report.key := mt (h.reported r.key).mpr hr
    have hmap : (gone ++ (t.reports ++ [r])).map Report.key
        = (gone ++ t.reports).map Report.key ++ [r.key] := by
      rw [← List.append_assoc, List.map_append]
      rfl
    rw [queue_new hr]
    refine ⟨⟨?_, fun key => ?_⟩, ?_⟩
    · rw [hmap]
      exact List.nodup_append.mpr ⟨h.once, List.nodup_cons.mpr ⟨List.not_mem_nil, .nil⟩,
        fun a ha b hb => by rintro rfl; exact hnew (List.mem_singleton.mp hb ▸ ha)⟩
    · rw [hmap, List.mem_cons, List.mem_append, List.mem_singleton, h.reported key, or_comm]
    · rw [hmap]
      exact List.mem_append_right _ List.mem_cons_self

theorem mem_queue (t : Tokenizer) (rs : List Report) :
    ∀ r ∈ (t.queue rs).reports, r ∈ t.reports ∨ r ∈ rs :=
  queue_induction (P := fun u => ∀ r ∈ u.reports, r ∈ t.reports ∨ r ∈ rs) (fun _ => .inl)
    fun _ _ hs h r hr => (List.mem_append.mp hr).elim (h r)
      fun hr => .inr (List.mem_singleton.mp hr ▸ hs)

theorem subset_queue (gone : List Report) (t : Tokenizer) (rs : List Report) :
    gone ++ t.reports ⊆ gone ++ (t.queue rs).reports :=
  ((List.prefix_append_right_inj gone).mpr (queue_grows t rs)).subset

theorem ReportsOnce.queue (h : ReportsOnce gone t) (rs : List Report) :
    ReportsOnce gone (t.queue rs)
      ∧ ∀ r ∈ rs, r.key ∈ (gone ++ (t.queue rs).reports).map Report.key := by
  induction rs generalizing t with
  | nil => exact ⟨h, fun r hr => absurd hr List.not_mem_nil⟩
  | cons s rs ih =>
    obtain ⟨hone, hs⟩ := h.queue_one s
    obtain ⟨hall, hrs⟩ := ih hone
    rw [queue_cons]
    refine ⟨hall, fun r hr => ?_⟩
    rcases List.mem_cons.mp hr with rfl | hr
    · exact List.map_subset _ (subset_queue gone _ rs) hs
    · exact hrs r hr

/-! ## What is read -/

/-- A token is read at some place, in some mode and with some operators. -/
structure Reading where
  mode : ReadMode
  operators : OperatorTable
  place : Cursor

namespace Reading

def reports (policy : UnicodePolicy) (x : Reading) : List Report :=
  (Scan.next policy x.mode x.operators x.place).reports

/-- The reading comes to an invalid escape, whose backslash stands at a position. -/
def Invalid (x : Reading) (letter : Char) (pos : Nat) : Prop :=
  Scan.ReadsInvalid x.mode x.operators x.place letter pos

end Reading

/-- What is read to hand out a token: nothing if there is a kept one. -/
def reads (t : Tokenizer) (mode : ReadMode) (operators : OperatorTable) : List Reading :=
  match t.ahead with
  | [] => [⟨mode, operators, t.cursor⟩]
  | _ :: _ => []

def readsPastBreaks (mode : ReadMode) (operators : OperatorTable) : Nat → Tokenizer → List Reading
  | 0, t => t.reads mode operators
  | n + 1, t =>
    t.reads mode operators
      ++ if (t.advance mode operators).1.kind = .lineBreak then
          readsPastBreaks mode operators n (t.advance mode operators).2
        else []

/-- What is read on an action. -/
def readsBy (t : Tokenizer) : Action → List Reading
  | .next skipBreaks mode operators =>
    if skipBreaks then readsPastBreaks mode operators t.remaining t else t.reads mode operators
  | .discard => []
  | .reset _ => []
  | .takeReports => []

def readsAlong (t : Tokenizer) : List Action → List Reading
  | [] => []
  | a :: actions => t.readsBy a ++ (t.perform a).readsAlong actions

/-- The reports that an action takes from the queue. -/
def takenBy (t : Tokenizer) : Action → List Report
  | .next _ _ _ => []
  | .discard => []
  | .reset _ => []
  | .takeReports => t.reports

def takenAlong (t : Tokenizer) : List Action → List Report
  | [] => []
  | a :: actions => t.takenBy a ++ (t.perform a).takenAlong actions

/-- The reports that are queued along some actions, be they taken or not. -/
def queuedAlong (t : Tokenizer) (actions : List Action) : List Report :=
  t.takenAlong actions ++ (t.after actions).reports

/-- What was read of a text so far has been reported, and nothing else. -/
structure Reports (policy : UnicodePolicy) (cs : List Char) (readings : List Reading)
    (gone : List Report) (t : Tokenizer) : Prop where
  governed : t.policy = policy
  cursor : t.cursor.StandsIn cs
  kept : ∀ e ∈ t.kept, e.2.StandsIn cs
  places : ∀ x ∈ readings, x.place.StandsIn cs
  once : ReportsOnce gone t
  read : ∀ r ∈ gone ++ t.reports, ∃ x ∈ readings, r ∈ x.reports policy
  all : ∀ x ∈ readings, ∀ r ∈ x.reports policy, r.key ∈ (gone ++ t.reports).map Report.key

variable {readings : List Reading}

theorem Reports.advance (h : Reports policy cs readings gone t) (mode : ReadMode)
    (operators : OperatorTable) :
    Reports policy cs (readings ++ t.reads mode operators) gone (t.advance mode operators).2 := by
  unfold Tokenizer.advance reads
  cases he : t.ahead with
  | cons e es =>
    have hkept : (t.taken ++ [e]) ++ es = t.kept := by simp [Tokenizer.kept, he]
    rw [List.append_nil]
    refine ⟨h.governed, h.cursor, fun x hx => h.kept x ?_, h.places,
      ⟨h.once.once, h.once.reported⟩, h.read, h.all⟩
    rw [← hkept]
    exact hx
  | nil =>
    have hreports : (Scan.next t.policy mode operators t.cursor).reports
        = (Reading.mk mode operators t.cursor).reports policy := by rw [← h.governed]; rfl
    obtain ⟨honce, hkeys⟩ := h.once.queue (Scan.next t.policy mode operators t.cursor).reports
    refine ⟨(queue_policy t _).trans h.governed, ?_, ?_, ?_, ⟨honce.once, honce.reported⟩, ?_, ?_⟩
    · exact (Scan.next_reaches t.policy mode operators t.cursor).standsIn h.cursor
    · intro e hm
      simp only [Tokenizer.kept, queue_kept, he, List.append_nil, List.mem_append,
        List.mem_singleton] at hm
      rcases hm with hm | rfl
      · exact h.kept e (List.mem_append_left _ hm)
      · exact h.cursor
    · exact List.forall_mem_append.mpr ⟨h.places, List.forall_mem_singleton.mpr h.cursor⟩
    · intro r hr
      have hold (hr : r ∈ gone ++ t.reports) :
          ∃ x ∈ readings ++ [Reading.mk mode operators t.cursor], r ∈ x.reports policy := by
        obtain ⟨x, hx, hxr⟩ := h.read r hr
        exact ⟨x, List.mem_append_left _ hx, hxr⟩
      rcases List.mem_append.mp hr with hr | hr
      · exact hold (List.mem_append_left _ hr)
      · rcases mem_queue t _ r hr with hr | hr
        · exact hold (List.mem_append_right _ hr)
        · exact ⟨_, List.mem_append_right _ (List.mem_singleton_self _), hreports ▸ hr⟩
    · intro x hx r hr
      rcases List.mem_append.mp hx with hx | hx
      · exact List.map_subset _ (subset_queue gone t _) (h.all x hx r hr)
      · obtain rfl := List.mem_singleton.mp hx
        exact hkeys r (hreports ▸ hr)

theorem Reports.nextPastBreaks (h : Reports policy cs readings gone t) (mode : ReadMode)
    (operators : OperatorTable) (n : Nat) :
    Reports policy cs (readings ++ readsPastBreaks mode operators n t) gone
      (nextPastBreaks mode operators n t).2 := by
  induction n generalizing t readings with
  | zero => exact h.advance mode operators
  | succ n ih =>
    have hone := h.advance mode operators
    rw [Tokenizer.nextPastBreaks, readsPastBreaks, ← List.append_assoc]
    simp only
    split
    · exact ih hone
    · rw [List.append_nil]
      exact hone

theorem Reports.next (h : Reports policy cs readings gone t) (skipBreaks : Bool) (mode : ReadMode)
    (operators : OperatorTable) :
    Reports policy cs (readings ++ t.readsBy (.next skipBreaks mode operators)) gone
      (t.next skipBreaks mode operators).2 := by
  have hread : Reports policy cs (readings ++ t.readsBy (.next skipBreaks mode operators)) gone
      (if skipBreaks then Tokenizer.nextPastBreaks mode operators t.remaining t
        else t.advance mode operators).2 := by
    cases skipBreaks with
    | true => exact h.nextPastBreaks mode operators t.remaining
    | false => exact h.advance mode operators
  exact ⟨hread.governed, hread.cursor, hread.kept, hread.places,
    ⟨hread.once.once, hread.once.reported⟩, hread.read, hread.all⟩

theorem Reports.perform (h : Reports policy cs readings gone t) (a : Action) :
    Reports policy cs (readings ++ t.readsBy a) (gone ++ t.takenBy a) (t.perform a) := by
  cases a with
  | next skipBreaks mode operators =>
    rw [takenBy, List.append_nil]
    exact h.next skipBreaks mode operators
  | discard =>
    rw [readsBy, takenBy, List.append_nil, List.append_nil]
    exact ⟨h.governed, h.cursor, fun e he => h.kept e (List.mem_append_right _ he), h.places,
      ⟨h.once.once, h.once.reported⟩, h.read, h.all⟩
  | reset giveUp =>
    rw [readsBy, takenBy, List.append_nil, List.append_nil]
    cases giveUp with
    | true =>
      refine ⟨h.governed, ?_, nofun, h.places, ⟨h.once.once, h.once.reported⟩, h.read, h.all⟩
      have hcommitted : t.committed.StandsIn cs := by
        rw [committed_eq_firstPlace]
        cases hk : t.kept with
        | nil => exact h.cursor
        | cons e es => exact h.kept e (hk ▸ List.mem_cons_self)
      exact hcommitted
    | false =>
      exact ⟨h.governed, h.cursor, h.kept, h.places, ⟨h.once.once, h.once.reported⟩, h.read, h.all⟩
  | takeReports =>
    have htold : (gone ++ t.reports) ++ [] = gone ++ t.reports := List.append_nil _
    rw [readsBy, takenBy, List.append_nil]
    refine ⟨h.governed, h.cursor, h.kept, h.places, ⟨?_, ?_⟩, ?_, ?_⟩
    · exact htold.symm ▸ h.once.once
    · exact htold.symm ▸ h.once.reported
    · exact htold.symm ▸ h.read
    · exact htold.symm ▸ h.all

theorem Reports.after (h : Reports policy cs readings gone t) (actions : List Action) :
    Reports policy cs (readings ++ t.readsAlong actions) (gone ++ t.takenAlong actions)
      (t.after actions) := by
  induction actions generalizing t readings gone with
  | nil =>
    rw [readsAlong, takenAlong, List.append_nil, List.append_nil]
    exact h
  | cons a actions ih =>
    have hall := ih (h.perform a)
    rw [List.append_assoc, List.append_assoc] at hall
    exact hall

theorem reports_startingAt (policy : UnicodePolicy) (cs : List Char) (start : Nat) :
    Reports policy cs [] [] (startingAt policy cs start) := by
  refine ⟨rfl, ?_, nofun, nofun, ⟨.nil, fun key => Iff.rfl⟩, nofun, nofun⟩
  simp [startingAt, Cursor.advance, Cursor.start, Cursor.StandsIn]

theorem Reports.read_invalid (h : Reports policy cs readings gone t) {r : Report}
    (hr : r ∈ gone ++ t.reports) (hi : r.isInvalidEscape = true) :
    ∃ x ∈ readings, ∃ letter pos, x.Invalid letter pos
      ∧ r ∈ Scan.escapeReports policy letter pos := by
  obtain ⟨x, hx, hxr⟩ := h.read r hr
  exact ⟨x, hx, (Scan.next_mem_reports x.mode x.operators x.place r).mp
    (List.mem_filter.mpr ⟨hxr, hi⟩)⟩

/-- An invalid escape that was read is reported once. -/
theorem Reports.invalid_once (h : Reports policy cs readings gone t) {x : Reading}
    (hx : x ∈ readings) {letter : Char} {pos : Nat} (hi : x.Invalid letter pos) :
    (gone ++ t.reports).filter (fun r => r.isInvalidEscape && r.position == some pos)
      = Scan.escapeReports policy letter pos := by
  have hstands := hi.stands (h.places x hx)
  -- What is reported there is about the same letter.
  have hpast (r : Report) (hr : r ∈ gone ++ t.reports) (hinvalid : r.isInvalidEscape = true)
      (hpos : r.position = some pos) : r ∈ Scan.escapeReports policy letter pos := by
    obtain ⟨y, hy, letter', pos', hi', hr'⟩ := h.read_invalid hr hinvalid
    obtain rfl : pos' = pos := Option.some.inj
      ((Scan.position_of_mem_escapeReports hr').symm.trans hpos)
    obtain rfl : letter' = letter := Option.some.inj
      ((hi'.stands (h.places y hy)).symm.trans hstands)
    exact hr'
  have hmem (r : Report) :
      r ∈ (gone ++ t.reports).filter (fun r => r.isInvalidEscape && r.position == some pos)
        ↔ r ∈ Scan.escapeReports policy letter pos := by
    rw [List.mem_filter, Bool.and_eq_true, beq_iff_eq]
    refine ⟨fun ⟨hr, hinvalid, hpos⟩ => hpast r hr hinvalid hpos, fun hr => ?_⟩
    obtain ⟨hreported, hinvalid⟩ := List.mem_filter.mp
      ((Scan.next_mem_reports x.mode x.operators x.place r).mpr ⟨letter, pos, hi, hr⟩)
    obtain ⟨s, hs, hkey⟩ := List.mem_map.mp (h.all x hx r hreported)
    obtain ⟨hposition, hmessage⟩ := Prod.mk.inj hkey
    have hpos := hposition.trans (Scan.position_of_mem_escapeReports hr)
    have hsinvalid : s.isInvalidEscape = true := by
      rw [Report.isInvalidEscape, hmessage]
      exact hinvalid
    obtain rfl := Scan.eq_of_mem_escapeReports hr (hpast s hs hsinvalid hpos)
    exact ⟨hs, hsinvalid, hpos⟩
  have hnodup : (gone ++ t.reports).Nodup :=
    List.Pairwise.of_map Report.key (fun _ _ hne he => hne (congrArg _ he)) h.once.once
  have hperm := (List.perm_ext_iff_of_nodup (hnodup.filter _)
    (Scan.escapeReports_nodup policy letter pos)).mpr hmem
  cases policy with
  | error => exact List.perm_singleton.mp hperm
  | warn => exact List.perm_singleton.mp hperm
  | ignore => exact hperm.eq_nil

/-- A token in which an invalid escape is read has the same literal without its backslash, and ends
at the same place of the text, which is one character shorter. An operand without quotes does if no
operator is spelled with the letter, which may start an operator once the backslash is gone.
Whatever is read, given up, read again and taken from the queue, each invalid escape that was read
is reported once, where its backslash stands, unless such escapes are ignored, and no other report
is about one. -/
theorem invalid_escapes_overlooked (policy : UnicodePolicy) (cs : List Char) (start : Nat) :
    (∀ (mode : ReadMode) (operators : OperatorTable) (letter : Char) (pos : Nat),
      let l := Scan.next policy mode operators ((Cursor.start cs).advance start)
      let m := Scan.next policy mode operators ((Cursor.start (cs.eraseIdx pos)).advance start)
      Scan.ReadsInvalid mode operators ((Cursor.start cs).advance start) letter pos →
      Scan.invalidEscape? (cs.drop pos) = some letter
        ∧ ((mode = .operation → l.token.kind = .quoted ∨ operators.Lacks letter) →
          m.token.literal = l.token.literal ∧ m.after.rest = l.after.rest
            ∧ m.after.pos + 1 = l.after.pos))
      ∧ ∀ actions : List Action,
        let t := startingAt policy cs start
        (∀ x ∈ t.readsAlong actions, ∀ (letter : Char) (pos : Nat), x.Invalid letter pos →
          (t.queuedAlong actions).filter (fun r => r.isInvalidEscape && r.position == some pos)
              = Scan.escapeReports policy letter pos
            ∧ (Scan.escapeReports policy letter pos).length = if policy = .ignore then 0 else 1)
        ∧ ∀ r ∈ t.queuedAlong actions, r.isInvalidEscape = true →
          ∃ x ∈ t.readsAlong actions, ∃ letter pos, x.Invalid letter pos
            ∧ r.position = some pos := by
  refine ⟨?_, fun actions => ?_⟩
  · intro mode operators letter pos l m hi
    refine ⟨hi.stands (reports_startingAt policy cs start).cursor, fun hm => ?_⟩
    have hshort := Scan.next_shortened hi hm
    exact ⟨hshort.literal, hshort.rest, hshort.pos⟩
  · have h := (reports_startingAt policy cs start).after actions
    refine ⟨fun x hx letter pos hi => ⟨h.invalid_once hx hi, ?_⟩, fun r hr hinvalid => ?_⟩
    · exact Scan.escapeReports_length policy letter pos
    · obtain ⟨x, hx, letter, pos, hi, hr⟩ := h.read_invalid hr hinvalid
      exact ⟨x, hx, letter, pos, hi, Scan.position_of_mem_escapeReports hr⟩

/-- A quoted text is read three times, and its invalid escape is reported once. -/
theorem invalid_escapes_overlooked_again :
    let cs := "\"\\u12 \\u00e9\"".toList
    let place := (Cursor.start cs).advance 0
    let t := startingAt .error cs 0
    let actions : List Action := [.next false .value {}, .reset true, .next true .operation {},
      .takeReports, .reset true, .next true .word {}]
    let l := Scan.next .error .operation {} place
    let m := Scan.next .error .operation {} ((Cursor.start (cs.eraseIdx 1)).advance 0)
    Scan.ReadsInvalid .operation {} place 'u' 1 ∧ l.token.kind = .quoted
      ∧ l.token.literal = some "u12 é" ∧ m.token.literal = l.token.literal
      ∧ m.after.pos + 1 = l.after.pos
      ∧ (t.readsAlong actions).length = 3
      ∧ (t.queuedAlong actions).filter (fun r => r.isInvalidEscape && r.position == some 1)
        = Scan.escapeReports .error 'u' 1 := by
  intro cs place t actions l m
  have hplace : place.StandsIn cs := rfl
  have hoperand : Scan.ReadsInvalid .operation {} place 'u' 1 :=
    (Scan.readsInvalid_iff hplace).mpr (by decide +kernel)
  have hvalue : Scan.ReadsInvalid .value {} place 'u' 1 :=
    (Scan.readsInvalid_iff hplace).mpr (by decide +kernel)
  have hkind : l.token.kind = .quoted := by decide +kernel
  obtain ⟨hread, htold⟩ := invalid_escapes_overlooked .error cs 0
  obtain ⟨hliteral, -, hpos⟩ := (hread .operation {} 'u' 1 hoperand).2 fun _ => .inl hkind
  have hfirst : ⟨.value, {}, place⟩ ∈ t.readsAlong actions :=
    List.mem_append_left _ List.mem_cons_self
  exact ⟨hoperand, hkind, by decide +kernel, hliteral, hpos, by decide +kernel,
    ((htold actions).1 _ hfirst 'u' 1 hvalue).1⟩

/-- Without its backslash the letter may start an operator. -/
example :
    let operators : OperatorTable :=
      ⟨[⟨"u", false, .prefixed, none, .plain, Fixity.defaultPriority .prefixed⟩]⟩
    (Scan.next .error .operation operators (Cursor.start "\\u1".toList)).token.literal = some "u1"
      ∧ (Scan.next .error .operation operators (Cursor.start "u1".toList)).token.literal
        = some "u" := by decide +kernel

end Tokenizer

end ConfigScript
