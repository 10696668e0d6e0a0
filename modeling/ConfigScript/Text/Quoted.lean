import ConfigScript.Text.Blank

/-! # Bare and quoted literals

A literal that reads back as itself without quotes is written bare; any other one is written
between double quotes, with escapes. -/

namespace ConfigScript.Text

/-- Brackets, separators, quotes, the escape character and the start of a comment. -/
def isMark (c : Char) : Bool :=
  ['{', '}', '[', ']', '(', ')', ',', ':', '\'', '"', '\\', '/'].contains c

/-- A key, or the name of a collection or macro, that needs no quotes. -/
def isBareName (s : String) : Bool :=
  !s.isEmpty && s.toList.all fun c => !isBlank c && !isMark c

/-- A primitive value that needs no quotes: as for names, and it holds no `=`. -/
def isBareValue (s : String) : Bool :=
  isBareName s && s.toList.all (· != '=')

def quoteChar : Char → List Char
  | '"' => ['\\', '"']
  | '\\' => ['\\', '\\']
  | '\n' => ['\\', 'n']
  | '\r' => ['\\', 'r']
  | '\t' => ['\\', 't']
  | c => [c]

def quote (s : String) : String :=
  String.ofList ('"' :: s.toList.flatMap quoteChar ++ ['"'])

/-- A name, a key or a macro word as it is written in a script. -/
def writeName (s : String) : String :=
  if isBareName s then s else quote s

def writeValue (s : String) : String :=
  if isBareValue s then s else quote s

end ConfigScript.Text
