import ConfigScript.CommandLine.Run

/-! # The program

Looks at the files that a run consults, one round after the other until there are no more, and then
prints what the run answers. -/

namespace ConfigScript.CommandLine

/-- The paths that have been looked at, with what was there. -/
abbrev Known := List (String × Option FileEntry)

def Known.fileSystem (known : Known) : FileSystem where
  entry? path := (known.lookup path).join
  size := known.foldl (fun n (_, entry) =>
    match entry with
    | some (.file content) => n + content.size
    | _ => n) 0

/-- The names on the way to each file below a folder. What cannot be read is left out. -/
partial def filesBelow (folder : String) : IO (List (List String)) := do
  let mut ways := []
  for entry in ← ((← IO.currentDir).join folder).readDir do
    let name := entry.fileName
    try
      match (← entry.path.symlinkMetadata).type with
      | .dir => ways := ways ++ (← filesBelow s!"{folder}/{name}").map (name :: ·)
      | .file => ways := ways ++ [[name]]
      | _ => pure ()
    catch _ => pure ()
  return ways

def lookAt (path : String) : IO (Option FileEntry) := do
  try
    if ← ((← IO.currentDir).join path).isDir then return some (.folder (← filesBelow path))
    else return some (.file (← IO.FS.readBinFile path))
  catch _ => return none

/-- Looks at all files that a run consults. -/
partial def settle (arguments : List String) (known : Known) : IO Known := do
  let unknown := (consulted known.fileSystem arguments).filter fun path =>
    (known.lookup path).isNone
  if unknown.isEmpty then return known
  let mut known := known
  for path in unknown do
    known := (path, ← lookAt path) :: known
  settle arguments known

end ConfigScript.CommandLine

open ConfigScript.CommandLine in
def main (arguments : List String) : IO UInt32 := do
  let known ← settle arguments []
  let outcome := run known.fileSystem arguments
  for note in outcome.notes do
    IO.eprintln note
  if let some summary := outcome.summary then IO.eprintln summary
  IO.print outcome.output
  return outcome.exitCode.toUInt32
