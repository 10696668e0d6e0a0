import ConfigScript.Fault
import ConfigScript.Number.Reading
import ConfigScript.Number.Shortest
import ConfigScript.Text.Quoted

/-! # Operators

An operator is a spelling with a fixity, a priority and, for binary operators, a property. A
keyword is an operator spelled as a word. -/

namespace ConfigScript

inductive Fixity
  | binary
  | prefixed
  | postfixed
  deriving DecidableEq, Repr

namespace Fixity

def label : Fixity → String
  | binary => "binary"
  | prefixed => "prefix"
  | postfixed => "postfix"

/-- Place in the order in which the definitions of one spelling are listed. -/
def rank : Fixity → Nat
  | binary => 0
  | prefixed => 1
  | postfixed => 2

def defaultPriority : Fixity → Number
  | binary => Number.ofInt 6
  | prefixed => Number.ofInt 9
  | postfixed => Number.ofInt 10

/-- The fixity that one spelling cannot have at the same time. -/
def exclusive? : Fixity → Option Fixity
  | binary => some postfixed
  | postfixed => some binary
  | prefixed => none

end Fixity

/-- How a binary operator deviates from a left-associative one. An accessor applies a function
macro to its left operand. -/
inductive OperatorProperty
  | plain
  | rightAssociative
  | accessor
  deriving DecidableEq, Repr

def OperatorProperty.label : OperatorProperty → String
  | plain => "none"
  | rightAssociative => "right-associative"
  | accessor => "accessor"

structure Operator where
  name : String
  keyword : Bool
  fixity : Fixity
  /-- The name of the operation, if it is not that of the operator. -/
  substitute : Option String
  property : OperatorProperty
  priority : Number
  deriving DecidableEq, Repr

namespace Operator

/-- Checks and builds a definition. The default priority of the fixity stands for a missing one
and for one that is not a number. -/
def create (name : String) (keyword : Bool) (fixity : Fixity) (substitute : Option String)
    (property : OperatorProperty) (priority : Option Number) : Except Fault Operator :=
  if name.isEmpty then
    .error (.invalidOperator name "operator names cannot be empty")
  else if name.toList.any Text.isBlank then
    .error (.invalidOperator name "operator names cannot contain whitespace")
  else if fixity ≠ .binary ∧ property ≠ .plain then
    .error (.invalidOperator name "prefix and postfix operators cannot have additional properties")
  else
    let priority := (priority.filter fun p => !p.isNaN).getD fixity.defaultPriority
    .ok { name, keyword, fixity, substitute, property, priority }

def produces (o : Operator) : String := o.substitute.getD o.name

def isRightAssociative (o : Operator) : Bool := o.property == .rightAssociative

def isAccessor (o : Operator) : Bool := o.property == .accessor

/-- Equality of definitions; priorities are compared as numbers. -/
def same (a b : Operator) : Bool :=
  a.name == b.name && a.keyword == b.keyword && a.fixity == b.fixity && a.substitute == b.substitute
    && a.property == b.property && a.priority.eq b.priority

def spelledAs (name : String) (keyword : Bool) (o : Operator) : Bool :=
  o.name == name && o.keyword == keyword

/-- The order in which definitions are listed: by spelling, words after signs, then by fixity. -/
def precedes (a b : Operator) : Bool :=
  if a.name = b.name then
    if a.keyword = b.keyword then a.fixity.rank < b.fixity.rank else !a.keyword
  else a.name < b.name

/-- The statement that defines the operator. A priority is written if it is not the default. -/
def text (o : Operator) : String :=
  let property :=
    match o.property with
    | .plain => ""
    | p => " " ++ p.label
  let priority :=
    if o.priority.eq o.fixity.defaultPriority then "" else s!" ({o.priority.text})"
  let ending :=
    match o.substitute with
    | some a => " : " ++ Text.writeValue a
    | none => ""
  (if o.keyword then "keyword " else "operator ") ++ Text.writeValue o.name ++ " as "
    ++ o.fixity.label ++ property ++ priority ++ ending

end Operator

end ConfigScript
