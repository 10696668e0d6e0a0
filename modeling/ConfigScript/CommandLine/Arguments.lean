/-! # Command-line arguments

A command, its paths, and options. The options about compiling may stand before or after the
command. Each may be given once on either side; the file named after the command wins. -/

namespace ConfigScript.CommandLine

/-- The options about compiling. -/
structure Options where
  config : Option String := none
  allowDuplicateProperties : Bool := false
  allowInvalidOperators : Bool := false
  deriving DecidableEq, Repr

inductive Verb
  | check
  | ast
  | macros
  deriving DecidableEq, Repr

def Verb.ofName? : String → Option Verb
  | "check" => some .check
  | "ast" => some .ast
  | "macros" => some .macros
  | _ => none

inductive Command
  | check (paths : List String)
  | ast (file : String) (compact : Bool)
  | macros (file : String)
  deriving DecidableEq, Repr

/-- What the arguments ask for. -/
inductive Request
  | command (options : Options) (command : Command)
  | help
  | version
  deriving DecidableEq, Repr

/-- One argument, taken apart. -/
inductive Word
  | separator
  | long (name : String) (value : Option String)
  | short (letter : Char)
  | plain (text : String)
  deriving DecidableEq, Repr

def Word.ofText (text : String) : Word :=
  match text.toList with
  | ['-', '-'] => .separator
  | '-' :: '-' :: cs =>
    let name := String.ofList (cs.takeWhile (· != '='))
    match cs.dropWhile (· != '=') with
    | [] => .long name none
    | _ :: value => .long name (some (String.ofList value))
  | '-' :: c :: _ => .short c
  | _ => .plain text

/-- What has been given so far on one side of the command. -/
structure Given where
  options : Options := {}
  compact : Bool := false
  paths : List String := []
  /-- Set if the next argument is to name the configuration file. -/
  awaitsFile : Bool := false

namespace Given

def takeFile? (g : Given) (file : String) : Option Given :=
  if file.isEmpty || g.options.config.isSome then none
  else some { g with options := { g.options with config := some file }, awaitsFile := false }

/-- Takes a path; only one command takes several. -/
def takePath? (verb : Verb) (g : Given) (path : String) : Option Given :=
  if path.isEmpty || (verb != .check && !g.paths.isEmpty) then none
  else some { g with paths := g.paths ++ [path] }

/-- Takes an option that has no value, if it is not there yet. -/
def takeFlag? (g : Given) (verb : Option Verb) (name : String) : Option Given :=
  match name with
  | "allow-duplicate-properties" =>
    if g.options.allowDuplicateProperties then none
    else some { g with options := { g.options with allowDuplicateProperties := true } }
  | "allow-invalid-operators" =>
    if g.options.allowInvalidOperators then none
    else some { g with options := { g.options with allowInvalidOperators := true } }
  | "compact" =>
    if g.compact || verb != some .ast then none else some { g with compact := true }
  | _ => none

end Given

/-- What one option comes to. -/
inductive OptionStep
  | goOn (g : Given)
  | stop (r : Request)
  | refused

def takeOption (g : Given) (verb : Option Verb) : Word → OptionStep
  | .long "help" none => .stop .help
  | .short 'h' => .stop .help
  | .long "version" none => if verb.isNone then .stop .version else .refused
  | .short 'V' => if verb.isNone then .stop .version else .refused
  | .long "config" none => .goOn { g with awaitsFile := true }
  | .long "config" (some file) => ofOption (g.takeFile? file)
  | .long name none => ofOption (g.takeFlag? verb name)
  | _ => .refused
where
  ofOption : Option Given → OptionStep
    | some g => .goOn g
    | none => .refused

/-- The request, from what stands before and after the command. -/
def finish? (verb : Verb) (before after : Given) : Option Request :=
  if after.awaitsFile then none
  else
    let a := after.options
    let b := before.options
    let options : Options :=
      ⟨a.config.or b.config, a.allowDuplicateProperties || b.allowDuplicateProperties,
        a.allowInvalidOperators || b.allowInvalidOperators⟩
    match verb, after.paths with
    | .check, path :: paths => some (.command options (.check (path :: paths)))
    | .ast, [file] => some (.command options (.ast file after.compact))
    | .macros, [file] => some (.command options (.macros file))
    | _, _ => none

/-- Takes the name of the configuration file from a whole argument. -/
def takeFileWord? (g : Given) (word : String) : Option Given :=
  match Word.ofText word with
  | .plain file => g.takeFile? file
  | _ => none

def readAfter? (verb : Verb) (before : Given) : Given → List String → Option Request
  | g, [] => finish? verb before g
  | g, word :: words =>
    if g.awaitsFile then
      match takeFileWord? g word with
      | some g => readAfter? verb before g words
      | none => none
    else
      match Word.ofText word with
      | .separator =>
        (words.foldlM (Given.takePath? verb) g).bind (finish? verb before)
      | .plain path =>
        match g.takePath? verb path with
        | some g => readAfter? verb before g words
        | none => none
      | option =>
        match takeOption g (some verb) option with
        | .goOn g => readAfter? verb before g words
        | .stop r => some r
        | .refused => none

/-- Reads the arguments of a request for help: the name of a command, if anything. -/
def readHelp? : List String → Option Request
  | [] => some .help
  | [name] => if name = "help" || (Verb.ofName? name).isSome then some .help else none
  | _ => none

def readBefore? : Given → List String → Option Request
  | _, [] => none
  | g, word :: words =>
    if g.awaitsFile then
      match takeFileWord? g word with
      | some g => readBefore? g words
      | none => none
    else
      match Word.ofText word with
      | .separator => none
      | .plain "help" => readHelp? words
      | .plain name => (Verb.ofName? name).bind fun verb => readAfter? verb g {} words
      | option =>
        match takeOption g none option with
        | .goOn g => readBefore? g words
        | .stop r => some r
        | .refused => none

/-- What arguments ask for, unless they are no proper use of the program. -/
def Request.ofArguments? (arguments : List String) : Option Request := readBefore? {} arguments

end ConfigScript.CommandLine
