import ConfigScript.Parser.Statement

/-! # Scripts

A script is read statement by statement. Imports are answered by a resolver with a state of its
own; if the resolver breaks down, reading ends there with a report. -/

namespace ConfigScript

/-- What a resolver answers to a path: the definition found there, if any, with reports for the
script that asked, or a breakdown. -/
inductive ImportAnswer
  | answered (found : Option Definition) (reports : List Report)
  | crashed

/-- Resolves import paths. -/
abbrev Resolver (σ : Type) := String → σ → ImportAnswer × σ

/-- A compiled script. -/
structure Compiled where
  source : Source
  root : List Node
  definition : Definition
  reports : List Report

namespace Compiled

def isSuccess (c : Compiled) : Bool := !hasError c.reports

def hasWarning (c : Compiled) : Bool := ConfigScript.hasWarning c.reports

def expectSuccess (c : Compiled) : Except Fault Unit :=
  if c.isSuccess then .ok () else .error (.failedCompilation (countOf .error c.reports))

/-- All reports in full, after a headline if the script has a name. -/
def renderReports (name : Option String) (c : Compiled) : String :=
  (match name with
    | some name => s!"Compilation report for '{name}':\n"
    | none => "")
    ++ String.intercalate "\n"
      (c.reports.map fun r => s!"{r.severity.label}: {r.render c.source}")

end Compiled

namespace Parser

def start (config : Config) (visible : Definition) (source : Source) : ParserState :=
  { config, visible, tokenizer := Tokenizer.ofChars config.unicodePolicy source.chars }

/-- What one turn of reading a script comes to. -/
inductive Progress
  | ended
  | goesOn
  | brokenDown
  deriving DecidableEq, Repr

/-- Ends a statement that imports, with what the resolver answered. -/
def takeAnswer (start : Nat) (purpose : Purpose) (found : Option Definition) (rs : List Report) :
    Parser Unit := do
  addReports (rs.map (Report.orAt (some start)))
  finishImport start found purpose

/-- Reads one statement, with the import that it asks for. -/
def turn {σ : Type} (resolve : Resolver σ) (s : ParserState) (i : σ) : Progress × ParserState × σ :=
  match statement.run s with
  | (.endOfFile, s) => (.ended, s, i)
  | (.complete, s) => (.goesOn, s, i)
  | (.importing path start purpose, s) =>
    match resolve path i with
    | (.crashed, i) => (.brokenDown, s, i)
    | (.answered found rs, i) => (.goesOn, ((takeAnswer start purpose found rs).run s).2, i)

/-- Reads at most `n` statements. Tells whether the end of the script was reached. -/
def statements {σ : Type} (resolve : Resolver σ) : Nat → ParserState → σ → Bool × ParserState × σ
  | 0, s, i => (false, s, i)
  | n + 1, s, i =>
    match turn resolve s i with
    | (.ended, s, i) => (true, s, i)
    | (.goesOn, s, i) => statements resolve n s i
    | (.brokenDown, s, i) => (false, s, i)

/-- Ends a script that was not read to its end. -/
def breakDown (s : ParserState) : ParserState :=
  ((error "Unexpected error").run { s with recovering := false }).2

end Parser

/-- Compiles a script in which a definition is visible from the start. -/
def compile {σ : Type} (config : Config) (resolve : Resolver σ) (visible : Definition)
    (source : Source) (imports : σ) : Compiled × σ :=
  let s := Parser.start config visible source
  let (ended, s, imports) := Parser.statements resolve (source.length + 2) s imports
  let s := if ended && !s.exhausted then s else Parser.breakDown s
  (⟨source, s.root, s.exported, s.reports⟩, imports)

end ConfigScript
