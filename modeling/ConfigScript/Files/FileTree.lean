import ConfigScript.Files.FileSystem

/-! # File trees

A file system held in memory: the files of a folder, each with the names on the way to it. A folder
exists if it holds a file, at whatever depth. -/

namespace ConfigScript

structure FileTree where
  files : List (List String × ByteArray)

namespace FileTree

def ofFiles (files : List (String × ByteArray)) : FileTree :=
  ⟨files.map fun (path, content) => (path.splitOn "/", content)⟩

def isFolder (t : FileTree) (way : List String) : Bool :=
  way.isEmpty || t.files.any fun f => way.isPrefixOf f.1 && way.length < f.1.length

/-- The names on the way to what a path leads to, starting at a folder. Only a folder can be walked
through; nothing is known above the root. -/
def resolve? (t : FileTree) : List String → List String → Option (List String)
  | way, [] => some way
  | way, name :: names =>
    if !t.isFolder way then none
    else if name = "" || name = "." then t.resolve? way names
    else if name = ".." then if way.isEmpty then none else t.resolve? way.dropLast names
    else t.resolve? (way ++ [name]) names

def entryAt? (t : FileTree) (way : List String) : Option FileEntry :=
  match t.files.lookup way with
  | some content => some (.file content)
  | none =>
    if t.isFolder way then
      some (.folder ((t.files.filter fun f => way.isPrefixOf f.1).map fun f =>
        f.1.drop way.length))
    else none

/-- What is at a path from the root of the tree; absolute paths lead out of it. -/
def entry? (t : FileTree) (path : String) : Option FileEntry :=
  if path.isEmpty || path.startsWith "/" then none
  else (t.resolve? [] (path.splitOn "/")).bind t.entryAt?

def fileSystem (t : FileTree) : FileSystem :=
  ⟨t.entry?, t.files.foldl (fun n f => n + f.2.size) 0⟩

end FileTree

end ConfigScript
