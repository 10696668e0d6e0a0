import ConfigScript.Config
import ConfigScript.Import.Provider

/-! # Files

A file system answers paths. Import paths are resolved against the folder of the script that is
compiled, where scripts are files with the extension of the language. -/

namespace ConfigScript

/-- What is at a path: a file with its bytes, or a folder with all files below it, each given by the
names on the way from the folder. -/
inductive FileEntry
  | file (content : ByteArray)
  | folder (files : List (List String))

/-- What is at each path. The size bounds the characters of all files together, which are at least
as many as the imports they can ask for. -/
structure FileSystem where
  entry? : String → Option FileEntry
  size : Nat

def scriptExtension : String := "among"

def folderPrefix (path : String) : String :=
  String.ofList (path.toList.reverse.dropWhile (· != '/')).reverse

/-- The file that holds the script of an import path, for scripts in a given folder. -/
def scriptFile (folder path : String) : String :=
  (if path.startsWith "/" then "" else folder) ++ path ++ "." ++ scriptExtension

/-- Whether a file name has the extension of scripts: a name that only starts with a point has no
extension. -/
def isScriptName (name : String) : Bool :=
  let ending := ('.' :: scriptExtension.toList).reverse
  ending.isPrefixOf name.toList.reverse && name.length > ending.length

namespace FileSystem

def text (fs : FileSystem) (path : String) : Except Fault String :=
  match fs.entry? path with
  | some (.file content) =>
    match String.fromUTF8? content with
    | some text => .ok text
    | none => .error (.unreadable path)
  | _ => .error (.unreadable path)

/-- Provides the scripts of a folder. A file that is not text is a failure. -/
def provider (fs : FileSystem) (folder : String) : Provider Source where
  supply? path :=
    match fs.entry? (scriptFile folder path) with
    | some (.file content) =>
      match String.fromUTF8? content with
      | some text => some (.item (Source.ofText text))
      | none => some .failure
    | _ => none
  size := fs.size + 1

def environment (fs : FileSystem) (config : Config) (file : String) : Environment :=
  { config, scripts := [fs.provider (folderPrefix file)] }

/-- Whether names on the way to a file come before those to another: name by name, and a way that
ends comes first. -/
def waysLe : List String → List String → Bool
  | [], _ => true
  | _ :: _, [] => false
  | a :: as, b :: bs => if a = b then waysLe as bs else a < b

def below (folder : String) (way : List String) : String :=
  (if folder.endsWith "/" then folder else folder ++ "/") ++ String.intercalate "/" way

/-- The script files at a path, in order: a folder stands for all script files below it, and
anything else for itself. -/
def scriptsAt (fs : FileSystem) (path : String) : List String :=
  match fs.entry? path with
  | some (.folder files) =>
    let scripts := files.filter fun way => (way.getLast?.map isScriptName).getD false
    (scripts.mergeSort waysLe).map (below path)
  | _ => [path]

end FileSystem

end ConfigScript
