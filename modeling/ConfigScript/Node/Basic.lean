import ConfigScript.Fault
import ConfigScript.Number.Reading

/-! # Values

A script compiles to a sequence of nodes. A node is a primitive text, an object (an optionally
named map of properties in order of insertion), or a list (an optionally named sequence; an
operation is a list written with parentheses). An empty name means that there is none.

A node also carries information that takes no part in equality: where it stands in the script, the
mark that a macro template under construction puts on it, and whether it is what a macro came to. -/

namespace ConfigScript

/-- What a node carries beside its value. -/
structure NodeInfo where
  position : Option Nat := none
  mark : Option Nat := none
  /-- Set on what a macro of the script being read came to. -/
  made : Bool := false
  deriving DecidableEq, Repr, Inhabited

inductive Node
  | primitive (text : String) (info : NodeInfo)
  | object (name : String) (properties : List (String × Node)) (info : NodeInfo)
  | list (name : String) (operation : Bool) (items : List Node) (info : NodeInfo)
  deriving Repr, Inhabited

namespace Node

def value (text : String) : Node := primitive text {}

/-- What stands in place of a construct that could not be compiled. -/
def errorValue : Node := value "ERROR"

def info : Node → NodeInfo
  | primitive _ i => i
  | object _ _ i => i
  | list _ _ _ i => i

def setInfo (i : NodeInfo) : Node → Node
  | primitive text _ => primitive text i
  | object name props _ => object name props i
  | list name op items _ => list name op items i

def position (n : Node) : Option Nat := n.info.position

def setPosition (p : Option Nat) (n : Node) : Node := n.setInfo { n.info with position := p }

def placedAt (n : Node) (p : Nat) : Node := n.setPosition (some p)

def mark (n : Node) : Option Nat := n.info.mark

def setMark (m : Option Nat) (n : Node) : Node := n.setInfo { n.info with mark := m }

def asMade (n : Node) : Node := n.setInfo { n.info with made := true }

def name? : Node → Option String
  | primitive _ _ => none
  | object name _ _ => some name
  | list name _ _ _ => some name

def hasName (n : Node) : Bool := (n.name?.map fun name => !name.isEmpty).getD false

/-- Renames an object or list; a primitive stays as it is. -/
def setName (name : String) : Node → Node
  | primitive text i => primitive text i
  | object _ props i => object name props i
  | list _ op items i => list name op items i

def isPrimitive : Node → Bool
  | primitive _ _ => true
  | _ => false

def isObject : Node → Bool
  | object _ _ _ => true
  | _ => false

/-- True of operations too. -/
def isList : Node → Bool
  | list _ _ _ _ => true
  | _ => false

def isOperation : Node → Bool
  | list _ op _ _ => op
  | _ => false

def properties? : Node → Option (List (String × Node))
  | object _ props _ => some props
  | _ => none

def items? : Node → Option (List Node)
  | list _ _ items _ => some items
  | _ => none

end Node

/-- The seven shapes that the checks on macro arguments tell apart. -/
inductive Shape
  | primitive
  | unnamedObject
  | unnamedList
  | unnamedOperation
  | namedObject
  | namedList
  | namedOperation
  deriving DecidableEq, Repr

def Shape.name : Shape → String
  | .primitive => "primitive"
  | .unnamedObject => "object"
  | .unnamedList => "list"
  | .unnamedOperation => "operation"
  | .namedObject => "named object"
  | .namedList => "named list"
  | .namedOperation => "named operation"

namespace Node

def shape : Node → Shape
  | primitive _ _ => .primitive
  | object name _ _ => if name.isEmpty then .unnamedObject else .namedObject
  | list name op _ _ =>
    match name.isEmpty, op with
    | true, true => .unnamedOperation
    | true, false => .unnamedList
    | false, true => .namedOperation
    | false, false => .namedList

/-- The fault of a node of another shape than the expected one. -/
def unexpected (n : Node) (expected : String) : Fault := .unexpectedNode expected n.shape.name

def expectPrimitive : Node → Except Fault String
  | primitive text _ => .ok text
  | n => .error (n.unexpected "primitive")

def expectProperties : Node → Except Fault (List (String × Node))
  | object _ props _ => .ok props
  | n => .error (n.unexpected "object")

def expectItems : Node → Except Fault (List Node)
  | list _ _ items _ => .ok items
  | n => .error (n.unexpected "list")

end Node

/-- Readings of a primitive text. -/
def textToNumber (text : String) : Except Fault Number :=
  match Number.readTrimmed? text with
  | some x => .ok x
  | none => .error (.notANumber text)

def textToInteger (text : String) : Except Fault Int :=
  match Number.readInt64? text with
  | some n => .ok n
  | none => .error (.notAnInteger text)

/-- The words `true` and `false`, in any case. -/
def textToBoolean (text : String) : Except Fault Bool :=
  let word := String.ofList (text.toList.map Char.toLower)
  if word = "true" then .ok true
  else if word = "false" then .ok false
  else .error (.notABoolean text)

end ConfigScript
