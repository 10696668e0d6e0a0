import ConfigScript.Source

/-! # Reports

What is wrong in a script is never an exception: it is a report with a severity, a message, an
optional position in the script and hints. Functions that can find fault return the reports they
add, in order. -/

namespace ConfigScript

inductive Severity
  | info
  | warning
  | error
  deriving DecidableEq, Repr

def Severity.label : Severity → String
  | .info => "info"
  | .warning => "warning"
  | .error => "error"

def Severity.advice : Severity → String
  | .info => "advice"
  | .warning => "warning"
  | .error => "error"

structure Report where
  severity : Severity
  message : String
  position : Option Nat
  hints : List String
  deriving DecidableEq, Repr

namespace Report

def errorAt (message : String) (position : Option Nat) : Report := ⟨.error, message, position, []⟩

def error (message : String) : Report := errorAt message none

def warningAt (message : String) (position : Option Nat) : Report :=
  ⟨.warning, message, position, []⟩

def warning (message : String) : Report := warningAt message none

def info (message : String) : Report := ⟨.info, message, none, []⟩

def orAt (position : Option Nat) (r : Report) : Report :=
  { r with position := r.position.or position }

def isError (r : Report) : Bool := r.severity == .error

def isWarning (r : Report) : Bool := r.severity == .warning

/-- One line: severity and message. -/
def headline (r : Report) : String := s!"{r.severity.label}: {r.message}"

def render (r : Report) (source : Source) : String :=
  let place :=
    match r.position with
    | some p =>
      let lc := source.lineColumn p
      s!"[{lc.text}] {r.message}\n {lc.line} |{source.snippet p}"
    | none => r.message
  place ++ String.join (r.hints.map fun hint => s!"\nhint: {hint}")

def code (r : Report) : String := s!"among::report::{r.severity.label}"

def help? (r : Report) : Option String :=
  if r.hints.isEmpty then none else some (String.intercalate "\n" r.hints)

/-- Byte offset and length of what the report points at; at the end of the text the length is
one. -/
def span? (r : Report) (source : Source) : Option (Nat × Nat) :=
  r.position.map fun p => (source.byteOffset p, max (source.byteLength p) 1)

end Report

def hasError (rs : List Report) : Bool := rs.any Report.isError

def hasWarning (rs : List Report) : Bool := rs.any Report.isWarning

def countOf (severity : Severity) (rs : List Report) : Nat :=
  rs.countP (·.severity == severity)

end ConfigScript
