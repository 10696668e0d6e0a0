import ConfigScript.Node.Basic

/-! # JSON text of values

A primitive is a JSON string. An object has its name, if any, and its properties; a list has its
name, if any, its elements, and a flag if it is an operation. -/

namespace ConfigScript.Node

/-- A JSON value that is to be written. -/
inductive JsonTree
  | string (s : String)
  | flag (b : Bool)
  | array (items : List JsonTree)
  | object (members : List (String × JsonTree))

mutual

def toJson : Node → JsonTree
  | primitive s _ => .string s
  | object name props _ =>
    .object ((if name.isEmpty then [] else [("name", .string name)])
      ++ [("properties", .object (propertiesToJson props))])
  | list name operation items _ =>
    .object ((if name.isEmpty then [] else [("name", .string name)])
      ++ [("elements", .array (itemsToJson items))]
      ++ if operation then [("operation", .flag true)] else [])

def propertiesToJson : List (String × Node) → List (String × JsonTree)
  | [] => []
  | (key, v) :: ps => (key, toJson v) :: propertiesToJson ps

def itemsToJson : List Node → List JsonTree
  | [] => []
  | x :: xs => toJson x :: itemsToJson xs

end

namespace JsonTree

def hexDigit (n : Nat) : Char := (Nat.toDigits 16 n).head?.getD '0'

def escapeChar (c : Char) : List Char :=
  match c with
  | '"' => ['\\', '"']
  | '\\' => ['\\', '\\']
  | '\n' => ['\\', 'n']
  | '\r' => ['\\', 'r']
  | '\t' => ['\\', 't']
  | c =>
    if c.toNat = 8 then ['\\', 'b']
    else if c.toNat = 12 then ['\\', 'f']
    else if c.toNat < 32 then
      ['\\', 'u', '0', '0', hexDigit (c.toNat / 16), hexDigit (c.toNat % 16)]
    else [c]

def quoted (s : String) : String :=
  String.ofList ('"' :: s.toList.flatMap escapeChar ++ ['"'])

/-- Line break and indentation of a level, or nothing in compact text. -/
def breakLine (pretty : Bool) (level : Nat) : String :=
  if pretty then "\n" ++ String.ofList (List.replicate (2 * level) ' ') else ""

def bracketed (pretty : Bool) (level : Nat) (first last : String) (entries : List String) :
    String :=
  if entries.isEmpty then first ++ last
  else
    first ++ breakLine pretty (level + 1)
      ++ String.intercalate ("," ++ breakLine pretty (level + 1)) entries
      ++ breakLine pretty level ++ last

mutual

def write (pretty : Bool) (level : Nat) : JsonTree → String
  | string s => quoted s
  | flag b => if b then "true" else "false"
  | array items => bracketed pretty level "[" "]" (writeItems pretty (level + 1) items)
  | object members =>
    bracketed pretty level "\x7b" "\x7d" (writeMembers pretty (level + 1) members)

def writeItems (pretty : Bool) (level : Nat) : List JsonTree → List String
  | [] => []
  | x :: xs => write pretty level x :: writeItems pretty level xs

def writeMembers (pretty : Bool) (level : Nat) : List (String × JsonTree) → List String
  | [] => []
  | (key, v) :: ms =>
    (quoted key ++ (if pretty then ": " else ":") ++ write pretty level v)
      :: writeMembers pretty level ms

end

end JsonTree

def jsonText (n : Node) : String := (toJson n).write false 0

/-- The values of a script as a JSON array, on one line or indented. -/
def jsonTextOfRoot (pretty : Bool) (root : List Node) : String :=
  (JsonTree.array (itemsToJson root)).write pretty 0

end ConfigScript.Node
