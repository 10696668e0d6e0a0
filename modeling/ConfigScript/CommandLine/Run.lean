import ConfigScript.CommandLine.Arguments
import ConfigScript.Files.FileSystem
import ConfigScript.Import.Session
import ConfigScript.Node.Json

/-! # Commands

What the program answers to its arguments, given the files: an exit code, the text it prints, and
notes for whoever watches. Scripts with errors give exit code 1; bad usage and files that cannot be
read give 2. -/

namespace ConfigScript.CommandLine

structure Outcome where
  exitCode : Nat
  output : String := ""
  notes : List String := []
  /-- The totals of a check. -/
  summary : Option String := none
  deriving DecidableEq, Repr

def usage : String :=
  String.join <| List.map (· ++ "\n")
    ["Usage: among [OPTIONS] <COMMAND>",
     "",
     "Commands:",
     "  check <PATHS>...        Compile scripts and print every report",
     "  ast [--compact] <FILE>  Print the compiled values of a script as JSON",
     "  macros <FILE>           List the operators and macros a script exports",
     "",
     "Options:",
     "  --config <FILE>               JSON file with compiler options",
     "  --allow-duplicate-properties  Report duplicate object keys as warnings",
     "  --allow-invalid-operators     Report conflicting operators as warnings"]

def versionLine : String := "among 0.1.0\n"

def failure (f : Fault) : Outcome := { exitCode := 2, notes := [f.message] }

def exitCodeOf (success : Bool) : Nat := if success then 0 else 1

def configOf (fs : FileSystem) (options : Options) : Except Fault Config := do
  let c ←
    match options.config with
    | some file => Config.ofText (← fs.text file)
    | none => .ok {}
  return { c with
    allowDuplicateProperty := c.allowDuplicateProperty || options.allowDuplicateProperties
    allowInvalidOperator := c.allowInvalidOperator || options.allowInvalidOperators }

/-- Compiles the script in a file, with the session that answered its imports. -/
def compileFile (fs : FileSystem) (config : Config) (file : String) :
    Except Fault (Compiled × Session) := do
  let text ← fs.text file
  return (fs.environment config file).read {} (Source.ofText text) {}

/-- All reports on a script, if there are any. -/
def notesOn (file : String) (c : Compiled) : List String :=
  if c.reports.isEmpty then [] else [c.renderReports (some file)]

/-! ## Checking -/

structure Totals where
  files : Nat := 0
  errors : Nat := 0
  warnings : Nat := 0
  deriving DecidableEq, Repr

namespace Totals

def add (t : Totals) (c : Compiled) : Totals :=
  ⟨t.files + 1, t.errors + countOf .error c.reports, t.warnings + countOf .warning c.reports⟩

def text (t : Totals) : String :=
  s!"checked {t.files} file(s): {t.errors} error(s), {t.warnings} warning(s)"

end Totals

/-- Checks files in order. A file that cannot be read ends the check. -/
def checkFiles (fs : FileSystem) (config : Config) : Totals → List String → Outcome
  | t, [] => { exitCode := exitCodeOf (t.errors == 0), summary := some t.text }
  | t, file :: files =>
    match compileFile fs config file with
    | .error f => failure f
    | .ok (c, _) =>
      let rest := checkFiles fs config (t.add c) files
      { rest with notes := notesOn file c ++ rest.notes }

/-! ## Printing -/

/-- The operators and macros that a script exports, under headings. -/
def definitionListing (d : Definition) : String :=
  let entry (text : String) : String := "  " ++ text ++ "\n"
  "operators\n" ++ String.join (d.operators.operators.map fun o => entry o.text)
    ++ "macros\n" ++ String.join (d.macros.macros.map fun m => entry (m.usage true))

def printFile (fs : FileSystem) (config : Config) (file : String) (print : Compiled → String) :
    Outcome :=
  match compileFile fs config file with
  | .error f => failure f
  | .ok (c, _) =>
    { exitCode := exitCodeOf c.isSuccess, output := print c, notes := notesOn file c }

def runCommand (fs : FileSystem) (config : Config) : Command → Outcome
  | .check paths => checkFiles fs config {} (paths.flatMap fs.scriptsAt)
  | .ast file compact =>
    printFile fs config file fun c => Node.jsonTextOfRoot (!compact) c.root ++ "\n"
  | .macros file => printFile fs config file fun c => definitionListing c.definition

def run (fs : FileSystem) (arguments : List String) : Outcome :=
  match Request.ofArguments? arguments with
  | none => { exitCode := 2, notes := [usage] }
  | some .help => { exitCode := 0, output := usage }
  | some .version => { exitCode := 0, output := versionLine }
  | some (.command options command) =>
    match configOf fs options with
    | .error f => failure f
    | .ok config => runCommand fs config command

/-! ## Consulted files -/

def Command.scripts (fs : FileSystem) : Command → List String
  | .check paths => paths.flatMap fs.scriptsAt
  | .ast file _ => [file]
  | .macros file => [file]

def Command.paths : Command → List String
  | .check paths => paths
  | .ast file _ => [file]
  | .macros file => [file]

/-- The files in which the imports of a script, and their imports, are looked for. -/
def importedFiles (fs : FileSystem) (config : Config) (file : String) : List String :=
  match compileFile fs config file with
  | .ok (_, session) => session.cache.map fun (path, _) => scriptFile (folderPrefix file) path
  | .error _ => []

/-- The paths that a run consults. A run over files that are only partly known consults all that
are known to be needed, which may lead to more. -/
def consulted (fs : FileSystem) (arguments : List String) : List String :=
  match Request.ofArguments? arguments with
  | some (.command options command) =>
    options.config.toList
      ++ match configOf fs options with
        | .error _ => []
        | .ok config =>
          command.paths
            ++ (command.scripts fs).flatMap fun file => file :: importedFiles fs config file
  | _ => []

end ConfigScript.CommandLine
