import ConfigScript.Proofs.Token.Reported

/-! # Lexical reports

The tokenizer reports comments and texts that are not closed, and invalid escapes, and nothing
else. It goes on after each with what there is of the token. -/

namespace ConfigScript

/-- A report about a comment or a text that is not closed, or about an invalid escape. -/
def Report.isLexical (r : Report) : Bool :=
  r.message == "Unterminated block comment" || r.message == "Unterminated primitive"
    || "Invalid unicode escape ".toList.isPrefixOf r.message.toList

/-- All reports are lexical. -/
def ReportsLexical (rs : List Report) : Prop := ∀ r ∈ rs, r.isLexical = true

namespace Scan

theorem raises_lexical : Raises (fun _ => True) fun r => r.isLexical = true where
  comment _ := rfl
  primitive _ := rfl
  escape policy letter p _ r hr := by
    have hmessage : r.message = "Invalid unicode escape '\\" ++ String.ofList [letter] ++ "'" := by
      cases policy with
      | error => rw [List.mem_singleton.mp hr]; rfl
      | warn => rw [List.mem_singleton.mp hr]; rfl
      | ignore => simp [escapeReports] at hr
    rw [Report.isLexical, hmessage, Bool.or_eq_true]
    exact .inr (by simp [String.toList_append, List.isPrefixOf])

theorem next_lexical (policy : UnicodePolicy) (mode : ReadMode) (operators : OperatorTable)
    (c : Cursor) : ReportsLexical (next policy mode operators c).reports :=
  next_raise raises_lexical policy mode operators fun _ _ _ => trivial

end Scan

namespace Tokenizer

variable {t : Tokenizer}

theorem queue_lexical (h : ReportsLexical t.reports) {rs : List Report} (hr : ReportsLexical rs) :
    ReportsLexical (t.queue rs).reports :=
  queue_induction (P := fun u => ReportsLexical u.reports) h fun _ r hmem hu =>
    List.forall_mem_append.mpr ⟨hu, List.forall_mem_singleton.mpr (hr r hmem)⟩

theorem advance_lexical (h : ReportsLexical t.reports) (mode : ReadMode)
    (operators : OperatorTable) : ReportsLexical (t.advance mode operators).2.reports := by
  unfold Tokenizer.advance
  split
  · exact h
  · exact queue_lexical h (Scan.next_lexical _ _ _ _)

theorem nextPastBreaks_lexical (h : ReportsLexical t.reports) (mode : ReadMode)
    (operators : OperatorTable) (n : Nat) :
    ReportsLexical (nextPastBreaks mode operators n t).2.reports := by
  induction n generalizing t with
  | zero => exact advance_lexical h mode operators
  | succ n ih =>
    have hnext := advance_lexical h mode operators
    rw [nextPastBreaks]
    simp only
    split
    · exact ih hnext
    · exact hnext

theorem next_lexical (h : ReportsLexical t.reports) (skipBreaks : Bool) (mode : ReadMode)
    (operators : OperatorTable) :
    ReportsLexical (t.next skipBreaks mode operators).2.reports := by
  have hread : ReportsLexical (if skipBreaks then nextPastBreaks mode operators t.remaining t
      else t.advance mode operators).2.reports := by
    split
    · exact nextPastBreaks_lexical h mode operators t.remaining
    · exact advance_lexical h mode operators
  exact hread

end Tokenizer

end ConfigScript
