import ConfigScript.Import.Provider
import ConfigScript.Parser.Script

/-! # Import sessions

A session answers the imports of the scripts that are compiled in it. A path is resolved once and
its result is kept. A path that is asked for while it is being resolved is a cycle. If a provider
breaks down, the paths below it in the chain of imports are left, but its own path is not. -/

namespace ConfigScript

/-- What resolving a path came to. A script with errors counts as compiled. -/
inductive Resolution
  | provided (u : ImportedUnit)
  | compiled (c : Compiled)
  | failure

namespace Resolution

def isSuccess : Resolution → Bool
  | provided _ => true
  | compiled c => c.isSuccess
  | failure => false

def root? : Resolution → Option (List Node)
  | provided u => some u.root
  | compiled c => some c.root
  | failure => none

def definition? : Resolution → Option Definition
  | provided u => some u.definition
  | compiled c => some c.definition
  | failure => none

/-- What a script that imports the path can use. -/
def usable? (r : Resolution) : Option Definition := if r.isSuccess then r.definition? else none

end Resolution

/-- The answer to a request for a path, with the reports for whoever made it. -/
inductive PathAnswer
  | resolved (r : Resolution) (reports : List Report)
  | crashed

def PathAnswer.forImport : PathAnswer → ImportAnswer
  | resolved r reports => .answered r.usable? reports
  | crashed => .crashed

structure Session where
  /-- Paths and their results, the latest first. -/
  cache : List (String × Resolution) := []
  /-- The paths being resolved, in the order in which that began. -/
  resolving : List String := []

namespace Session

def cached? (s : Session) (path : String) : Option Resolution := s.cache.lookup path

def keep (s : Session) (path : String) (r : Resolution) : Session :=
  { s with cache := (path, r) :: s.cache }

def clear (s : Session) : Session := { s with cache := [] }

def enter (s : Session) (path : String) : Session :=
  { s with resolving := s.resolving ++ [path] }

def leave (s : Session) (path : String) : Session :=
  { s with resolving := s.resolving.erase path }

/-- The part of the chain of imports that a request for one of its paths closes to a cycle. -/
def cycle (s : Session) (path : String) : List String := s.resolving.dropWhile (· != path)

end Session

/-- The references along a chain of paths, one a line. -/
def referenceLines : List String → String
  | a :: b :: paths => s!"\n  '{a}' references '{b}'" ++ referenceLines (b :: paths)
  | _ => ""

def unresolvable (path reason : String) : Report :=
  .error s!"Cannot resolve definitions from path '{path}': {reason}"

/-- The report about a path that is asked for while it is being resolved. -/
def cycleReport (path : String) (cycle : List String) : Report :=
  match cycle with
  | _ :: second :: rest =>
    let last := (second :: rest).getLast (by simp)
    unresolvable path ("Circular reference detected" ++ referenceLines cycle
      ++ s!"\n  and '{last}' references '{path}'")
  | _ => unresolvable path "Self-reference"

namespace Session

/-- Answers from the results at hand, or else by resolving the path and keeping the result. -/
def answerWith (resolve : String → Session → PathAnswer × Session) (again : Bool) (path : String)
    (s : Session) : PathAnswer × Session :=
  match if again then none else s.cached? path with
  | some r => (.resolved r [], s)
  | none =>
    match resolve path s with
    | (.resolved r reports, s) => (.resolved r reports, s.keep path r)
    | (.crashed, s) => (.crashed, s)

/-- Resolves a path anew. Imports may nest as deep as the given bound. -/
def resolve (e : Environment) : Nat → String → Session → PathAnswer × Session
  | depth, path, s =>
    if s.resolving.contains path then
      (.resolved .failure [cycleReport path (s.cycle path)], s)
    else
      let s := s.enter path
      match search path (Library.provider :: e.units) with
      | .crashed => (.crashed, s)
      | .found u => (.resolved (.provided u) [], s.leave path)
      | .missing unitsFailed =>
        match search path e.scripts with
        | .crashed => (.crashed, s)
        | .missing scriptsFailed =>
          let reason :=
            if unitsFailed || scriptsFailed then "Error in script"
            else "No script corresponding to path"
          (.resolved .failure [unresolvable path reason], s.leave path)
        | .found source =>
          match depth with
          | 0 => (.crashed, s)
          | depth + 1 =>
            let imports (path : String) (s : Session) : ImportAnswer × Session :=
              let (answer, s) := answerWith (resolve e depth) false path s
              (answer.forImport, s)
            let (c, s) := compile e.config imports {} source s
            let reports := if c.isSuccess then [] else [unresolvable path "Error in script"]
            (.resolved (.compiled c) reports, s.leave path)

end Session

namespace Environment

/-- A bound on the nesting of imports: each level compiles another script. -/
def depth (e : Environment) : Nat := e.scripts.foldl (fun n p => n + p.size) 0

/-- The result for a path, resolved now if that did not happen before. -/
def get (e : Environment) (path : String) (s : Session) : PathAnswer × Session :=
  Session.answerWith (Session.resolve e e.depth) false path s

def reread (e : Environment) (path : String) (s : Session) : PathAnswer × Session :=
  Session.answerWith (Session.resolve e e.depth) true path s

/-- Compiles a script in a session, with a definition visible from the start. -/
def read (e : Environment) (visible : Definition) (source : Source) (s : Session) :
    Compiled × Session :=
  let imports (path : String) (s : Session) : ImportAnswer × Session :=
    let (answer, s) := e.get path s
    (answer.forImport, s)
  compile e.config imports visible source s

def readAlone (e : Environment) (visible : Definition) (source : Source) : Compiled :=
  (e.read visible source {}).1

end Environment

end ConfigScript
