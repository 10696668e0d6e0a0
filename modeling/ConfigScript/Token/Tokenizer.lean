import ConfigScript.Token.Scan

/-! # The tokenizer

Tokens that have been read and not yet committed are kept, each with the place at which its
reading began. They can be replayed, or given up so that their text is read again in another mode.
A lexical report is made once for a position, however often the text is read again. -/

namespace ConfigScript

structure Tokenizer where
  policy : UnicodePolicy
  /-- Kept tokens already handed out, in order. -/
  taken : List (Token × Cursor) := []
  /-- Kept tokens to be handed out again, in order. -/
  ahead : List (Token × Cursor) := []
  cursor : Cursor
  lastStart : Nat := 0
  reports : List Report := []
  reported : List (Option Nat × String) := []
  deriving Repr, Inhabited

namespace Tokenizer

def ofChars (policy : UnicodePolicy) (cs : List Char) : Tokenizer :=
  { policy, cursor := Cursor.start cs }

/-- Queues the reports that have not been made before. -/
def queue (t : Tokenizer) (rs : List Report) : Tokenizer :=
  rs.foldl (fun t r =>
    let key := (r.position, r.message)
    if t.reported.contains key then t
    else { t with reports := t.reports ++ [r], reported := key :: t.reported }) t

/-- The next token, replayed or read. -/
def advance (t : Tokenizer) (mode : ReadMode) (operators : OperatorTable) : Token × Tokenizer :=
  match t.ahead with
  | e :: es => (e.1, { t with taken := t.taken ++ [e], ahead := es })
  | [] =>
    let l := Scan.next t.policy mode operators t.cursor
    (l.token,
      { t.queue l.reports with taken := t.taken ++ [(l.token, t.cursor)], cursor := l.after })

/-- How many tokens may follow: each takes one kept token or one character, and the last is the
end of the file. -/
def remaining (t : Tokenizer) : Nat := t.ahead.length + t.cursor.rest.length + 1

/-- The next token other than a line break, among at most `n` tokens. -/
def nextPastBreaks (mode : ReadMode) (operators : OperatorTable) :
    Nat → Tokenizer → Token × Tokenizer
  | 0, t => t.advance mode operators
  | n + 1, t =>
    let (token, t) := t.advance mode operators
    if token.kind = .lineBreak then nextPastBreaks mode operators n t else (token, t)

/-- Hands out the next token; with `skipBreaks`, the next one that is not a line break. -/
def next (t : Tokenizer) (skipBreaks : Bool) (mode : ReadMode) (operators : OperatorTable) :
    Token × Tokenizer :=
  let (token, t) :=
    if skipBreaks then nextPastBreaks mode operators t.remaining t else t.advance mode operators
  (token, { t with lastStart := token.start })

/-- Commits the tokens handed out. -/
def discard (t : Tokenizer) : Tokenizer := { t with taken := [] }

/-- Goes back to the first kept token, to replay the kept tokens. -/
def replay (t : Tokenizer) : Tokenizer :=
  { t with taken := [], ahead := t.taken ++ t.ahead }

/-- The place up to which the text is committed: where the first kept token was read. -/
def committed (t : Tokenizer) : Cursor :=
  match t.taken ++ t.ahead with
  | e :: _ => e.2
  | [] => t.cursor

/-- Goes back to the place up to which the text is committed and gives the kept tokens up. -/
def reread (t : Tokenizer) : Tokenizer :=
  { t with taken := [], ahead := [], cursor := t.committed }

def takeReports (t : Tokenizer) : List Report × Tokenizer := (t.reports, { t with reports := [] })

end Tokenizer

end ConfigScript
