import ConfigScript.Config
import ConfigScript.Definition
import ConfigScript.Macro.Template
import ConfigScript.Token.Tokenizer

/-! # The state of reading a script

A parser is a function on the state of the script being read: the tokens, the values and
definitions so far, and the reports. Reports are dropped while the parser skips what it could not
understand; one without a position is placed at the last token. -/

namespace ConfigScript

structure ParserState where
  config : Config
  tokenizer : Tokenizer
  root : List Node := []
  /-- What the script defines. -/
  exported : Definition := {}
  /-- What the script can use: what it defines and what it imports. -/
  visible : Definition := {}
  reports : List Report := []
  recovering : Bool := false
  /-- The macro whose body is being read. -/
  template : Option Template := none
  /-- Set if the error value took the place of a construct. -/
  substituted : Bool := false
  /-- Set if a recursion reached its bound before its end. -/
  exhausted : Bool := false
  /-- Set if the right operand of an accessor is what a macro came to. -/
  accessedMade : Bool := false
  /-- How many marks were left out of the macro bodies read so far. -/
  lost : Nat := 0

abbrev Parser (α : Type) := StateM ParserState α

/-- What one turn of a loop comes to. -/
inductive Turn (α : Type)
  | again (a : α)
  | done (a : α)

namespace Parser

/-- Adds reports, unless the parser is skipping. -/
def addReports (rs : List Report) : Parser Unit :=
  modify fun s =>
    if s.recovering then s
    else { s with reports := s.reports ++ rs.map (Report.orAt (some s.tokenizer.lastStart)) }

def report (r : Report) : Parser Unit := addReports [r]

def error (message : String) : Parser Unit := report (Report.error message)

/-- Reads the next token with the operators that are visible now. -/
def next (skipBreaks : Bool) (mode : ReadMode) : Parser Token := do
  let s ← get
  let (token, tokenizer) := s.tokenizer.next skipBreaks mode s.visible.operators
  let (rs, tokenizer) := tokenizer.takeReports
  set { s with tokenizer }
  addReports rs
  return token

/-- Commits the tokens read. -/
def discard : Parser Unit := modify fun s => { s with tokenizer := s.tokenizer.discard }

/-- Goes back to the first token that is not committed; its text is read again if asked for. -/
def rewind (again : Bool) : Parser Unit :=
  modify fun s =>
    { s with tokenizer := if again then s.tokenizer.reread else s.tokenizer.replay }

/-- A bound on the turns of a loop and on the nesting of collections from here on: each takes at
least one character, or ends the script. -/
def bound : Parser Nat := do return (← get).tokenizer.committed.rest.length + 2

/-- Notes that a recursion was cut short. -/
def exhaust : Parser Unit := modify fun s => { s with exhausted := true }

/-- The marks left out so far, and some more if the body of a macro is being read. -/
def lostWith (marks : List Nat) (s : ParserState) : Nat :=
  if s.template.isSome then s.lost + marks.length else s.lost

/-- Notes whether the right operand of an accessor is what a macro came to, and that its mark is
left out. -/
def noteAccess (n : Node) : Parser Unit :=
  modify fun s => { s with
    accessedMade := s.accessedMade || n.info.made
    lost := lostWith n.mark.toList s }

/-- Notes marks that are left out with the value of a repeated property. -/
def noteLost (marks : List Nat) : Parser Unit :=
  modify fun s => { s with lost := lostWith marks s }

/-- Puts the error value in the place of a construct. -/
def substitute : Parser Node := do
  modify fun s => { s with substituted := true }
  return Node.errorValue

/-- Takes at most the given number of turns. -/
def turns {α : Type} (step : α → Parser (Turn α)) : Nat → α → Parser α
  | 0, a => do
    exhaust
    return a
  | n + 1, a => do
    match ← step a with
    | .again a => turns step n a
    | .done a => return a

/-- Takes turns until one is the last. -/
def loop {α : Type} (step : α → Parser (Turn α)) (a : α) : Parser α := do
  turns step (← bound) a

/-- Reads something that is no part of the macro body being read. -/
def outsideTemplate {α : Type} (p : Parser α) : Parser α := do
  let template := (← get).template
  modify fun s => { s with template := none }
  let a ← p
  modify fun s => { s with template }
  return a

end Parser

end ConfigScript
