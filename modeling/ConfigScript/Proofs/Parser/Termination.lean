import ConfigScript.Parser.Script
import ConfigScript.Proofs.Parser.StatementProgress

/-! # Reading a script ends

Every turn of reading a script ends the script or moves the committed place forward. So a script
is read to its end, without any recursion cut short, whatever it holds. -/

namespace ConfigScript

/-- A resolver that always answers, with definitions whose operators are checked. -/
def Resolver.Answers {σ : Type} (resolve : Resolver σ) : Prop :=
  ∀ path i, ∃ found rs, (resolve path i).1 = .answered found rs ∧ Parser.OperatorsChecked found

/-- Whatever an import finds has checked operators. -/
def Resolver.Checked {σ : Type} (resolve : Resolver σ) : Prop :=
  ∀ path i found rs j, resolve path i = (.answered found rs, j) → Parser.OperatorsChecked found

theorem Resolver.Answers.checked {σ : Type} {resolve : Resolver σ} (h : resolve.Answers) :
    resolve.Checked := by
  intro path i found rs j ha
  obtain ⟨found', rs', ha', hf⟩ := h path i
  rw [ha] at ha'
  exact (ImportAnswer.answered.inj ha').1 ▸ hf

namespace Parser

variable {σ : Type} {resolve : Resolver σ} {cs : List Char} {s t u : ParserState} {i j k : σ}

/-- The states between the statements of a script, with those of the resolver. -/
inductive Reached (resolve : Resolver σ) (s : ParserState) (i : σ) : ParserState → σ → Prop
  | start : Reached resolve s i s i
  | turn {t u : ParserState} {j k : σ} :
    Reached resolve s i t j → turn resolve t j = (.goesOn, u, k) → Reached resolve s i u k

theorem takeAnswer_spec (start : Nat) (purpose : Purpose) {found : Option Definition}
    (rs : List Report) (hf : OperatorsChecked found) (hs : Ready cs s) :
    Yields (takeAnswer start purpose found rs) s fun _ t => Onward cs s t := by
  unfold takeAnswer
  refine Yields.bind (addReports_still _) fun _ t ht => ?_
  exact (finishImport_spec _ hf _ (ht.ready hs)).mono fun _ u hu => (ht.onward hs).trans hu

/-- A turn ends the script, or goes on with less text. -/
theorem turn_spec (hr : resolve.Answers) (hs : Ready cs s) (i : σ) :
    ∃ t j, (turn resolve s i = (.ended, t, j) ∧ Ready cs t)
      ∨ (turn resolve s i = (.goesOn, t, j) ∧ Goes cs s t) := by
  have hstatement := statement_spec hs
  unfold Yields at hstatement
  unfold turn
  generalize statement.run s = read at hstatement ⊢
  obtain ⟨r, t⟩ := read
  rcases hstatement with ⟨he, ht, -⟩ | ⟨hread, hg⟩
  · simp only at he
    subst he
    exact ⟨t, i, .inl ⟨rfl, ht.ready⟩⟩
  · cases r with
    | endOfFile => exact hread.elim
    | complete => exact ⟨t, i, .inr ⟨rfl, hg⟩⟩
    | importing path start purpose =>
      obtain ⟨found, rs, ha, hf⟩ := hr path i
      have hanswer := takeAnswer_spec start purpose rs hf hg.1.ready
      cases hj : resolve path i with
      | mk answer j =>
        rw [hj] at ha
        simp only at ha
        subst ha
        simp only [hj]
        exact ⟨_, j, .inr ⟨rfl, hg.trans hanswer⟩⟩

theorem turn_ready (hr : resolve.Checked) (hs : Ready cs s)
    (ht : turn resolve s i = (.goesOn, t, j)) : Ready cs t := by
  have hstatement := statement_spec hs
  unfold Yields at hstatement
  unfold turn at ht
  generalize statement.run s = read at hstatement ht
  obtain ⟨r, u⟩ := read
  have hu : Ready cs u := by
    obtain ⟨-, h, -⟩ | ⟨-, h⟩ := hstatement
    · exact h.ready
    · exact h.1.ready
  cases r with
  | endOfFile => simp at ht
  | complete =>
    simp only [Prod.mk.injEq, true_and] at ht
    exact ht.1 ▸ hu
  | importing path start purpose =>
    cases hj : resolve path i with
    | mk answer k =>
      simp only [hj] at ht
      cases answer with
      | crashed => simp at ht
      | answered found rs =>
        simp only [Prod.mk.injEq, true_and] at ht
        exact ht.1 ▸ (takeAnswer_spec start purpose rs (hr _ _ _ _ _ hj) hu).ready

theorem Reached.ready_of_checked (h : Reached resolve s i t j) (hr : resolve.Checked)
    (hs : Ready cs s) : Ready cs t := by
  induction h with
  | start => exact hs
  | turn _ hturn ih => exact turn_ready hr ih hturn

theorem Reached.ready (h : Reached resolve s i t j) (hr : resolve.Answers) (hs : Ready cs s) :
    Ready cs t :=
  h.ready_of_checked hr.checked hs

/-- As many turns as there are characters, and one more, reach the end. -/
theorem statements_spec (hr : resolve.Answers) {n : Nat} (hs : Ready cs s) (hn : left s < n)
    (i : σ) : ∃ t j, statements resolve n s i = (true, t, j) ∧ Ready cs t := by
  induction n generalizing s i with
  | zero => omega
  | succ n ih =>
    unfold statements
    obtain ⟨t, j, ⟨he, ht⟩ | ⟨hg, ht⟩⟩ := turn_spec hr hs i
    · exact ⟨t, j, by simp only [he], ht⟩
    · have := ht.2
      obtain ⟨u, k, hu, hready⟩ := ih ht.1.ready (by omega) j
      exact ⟨u, k, by simp only [hg, hu], hready⟩

theorem start_ready (config : Config) {visible : Definition} (hv : visible.operators.Valid)
    (source : Source) : Ready source.chars (start config visible source) :=
  ⟨Tokenizer.onText_ofChars _ _, hv, rfl⟩

theorem Goes.committed_pos_lt (h : Goes cs s t) (hs : Ready cs s) :
    s.tokenizer.discard.committed.pos < t.tokenizer.discard.committed.pos := by
  have hb := (hs.onText.discard.begins).pos_add
  have hb' := (h.1.ready.onText.discard.begins).pos_add
  have hlt := h.2
  rw [left, left] at hlt
  rw [Tokenizer.committed_discard] at hb hb' ⊢
  rw [Tokenizer.committed_discard]
  omega

/-- Every script is read to its end without a breakdown. Between its statements all places kept
are places of the text, and each turn ends the script or moves the committed place forward. Reading
a token, committing and going back stay on the text, whatever the mode and the operators. -/
theorem reading_ends (config : Config) (resolve : Resolver σ) (hr : resolve.Answers)
    (visible : Definition) (hv : visible.operators.Valid) (source : Source) (imports : σ) :
    (∃ s i, statements resolve (source.length + 2) (start config visible source) imports
          = (true, s, i)
        ∧ s.exhausted = false
        ∧ compile config resolve visible source imports
          = (⟨source, s.root, s.exported, s.reports⟩, i))
      ∧ (∀ s i, Reached resolve (start config visible source) imports s i →
        s.exhausted = false ∧ s.tokenizer.OnText source.chars
          ∧ (∀ c ∈ s.tokenizer.places, c.rest = source.chars.drop c.pos ∧ c.pos ≤ source.length)
          ∧ ((turn resolve s i).1 = .ended
            ∨ ((turn resolve s i).1 = .goesOn
              ∧ s.tokenizer.discard.committed.pos
                < (turn resolve s i).2.1.tokenizer.discard.committed.pos)))
      ∧ ∀ t : Tokenizer, t.OnText source.chars →
        t.discard.OnText source.chars ∧ t.replay.OnText source.chars ∧ t.reread.OnText source.chars
          ∧ ∀ skipBreaks mode operators, operators.Valid →
            (t.next skipBreaks mode operators).2.OnText source.chars
              ∧ t.cursor.Reaches (Scan.next t.policy mode operators t.cursor).after := by
  have hs := start_ready config hv source
  refine ⟨?_, fun s i h => ?_, fun t ht => ?_⟩
  · have hleft : left (start config visible source) < source.length + 2 :=
      Nat.lt_add_of_pos_right (by decide)
    obtain ⟨s, i, he, ht⟩ := statements_spec hr hs hleft imports
    refine ⟨s, i, he, ht.complete, ?_⟩
    unfold compile
    simp only [he, ht.complete, Bool.not_false, Bool.and_true, if_true]
  · have ht := h.ready hr hs
    refine ⟨ht.complete, ht.onText, fun c hc => ht.onText.places hc, ?_⟩
    obtain ⟨t, j, ⟨he, -⟩ | ⟨hg, hgoes⟩⟩ := turn_spec hr ht i
    · exact .inl (by rw [he])
    · exact .inr ⟨by rw [hg], by rw [hg]; exact hgoes.committed_pos_lt ht⟩
  · refine ⟨ht.discard, ht.replay, ht.reread, fun skipBreaks mode operators ho => ?_⟩
    exact ⟨(Tokenizer.next_onText ht skipBreaks mode ho).1, Scan.next_reaches _ mode operators _⟩

/-- A stray closer, an operation that nothing closes, and an import that finds nothing, read with
one operator. -/
theorem reading_ends_unclosed :
    let resolve : Resolver Unit := fun _ i => (.answered none [], i)
    let plus : Operator := ⟨"+", false, .binary, none, .plain, Fixity.defaultPriority .binary⟩
    let source := Source.ofText "] (1 + \nuse m"
    resolve.Answers ∧ OperatorTable.Valid ⟨[plus]⟩
      ∧ ∃ s i, statements resolve (source.length + 2)
        (start {} { operators := ⟨[plus]⟩ } source) () = (true, s, i) ∧ s.exhausted = false := by
  intro resolve plus source
  have hr : resolve.Answers := fun _ _ => ⟨none, [], rfl, by simp [OperatorsChecked]⟩
  have hplus : plus.Valid := ⟨none, by decide⟩
  have hv : OperatorTable.Valid ⟨[plus]⟩ := by
    intro o ho
    rw [List.mem_singleton.mp ho]
    exact hplus
  obtain ⟨⟨s, i, he, hx, -⟩, -⟩ := reading_ends {} resolve hr { operators := ⟨[plus]⟩ } hv source ()
  exact ⟨hr, hv, s, i, he, hx⟩

end Parser

end ConfigScript
