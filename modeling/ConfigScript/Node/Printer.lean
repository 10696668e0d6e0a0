import ConfigScript.Node.Basic
import ConfigScript.Text.Quoted

/-! # Compact text of values

The text of a node is a script that reads back as that node: names, keys and texts are quoted only
where they must be, and no blanks are written. -/

namespace ConfigScript.Node

open ConfigScript.Text

/-- The name in front of a bracket; an unnamed collection has none. -/
def writeOptionalName (name : String) : String := if name.isEmpty then "" else writeName name

mutual

def text : Node → String
  | primitive s _ => writeValue s
  | object name props _ =>
    writeOptionalName name ++ "\x7b" ++ String.intercalate "," (textProperties props) ++ "\x7d"
  | list name true items _ =>
    writeOptionalName name ++ "(" ++ String.intercalate "," (textItems items) ++ ")"
  | list name false items _ =>
    writeOptionalName name ++ "[" ++ String.intercalate "," (textItems items) ++ "]"

def textProperties : List (String × Node) → List String
  | [] => []
  | (key, v) :: ps => (writeName key ++ ":" ++ text v) :: textProperties ps

def textItems : List Node → List String
  | [] => []
  | x :: xs => text x :: textItems xs

end

def textOfRoot (root : List Node) : String := String.intercalate "\n" (root.map text)

end ConfigScript.Node
