import ConfigScript.Operator.Basic

/-! # Operator tables

The operators that are known at some point of a script, in listing order. A spelling has at most
one definition of each fixity, and never both a binary and a postfix one. -/

namespace ConfigScript

structure OperatorTable where
  operators : List Operator := []
  deriving DecidableEq, Repr, Inhabited

/-- What came of adding an operator to a table. -/
inductive Registration
  | added
  | identical
  | typeConflict (existing : Operator)
  | binaryPostfixConflict (existing : Operator)
  deriving Repr

namespace Registration

def isAdded : Registration → Bool
  | added => true
  | _ => false

def isAccepted : Registration → Bool
  | added => true
  | identical => true
  | _ => false

def message (o : Operator) : Registration → String
  | added => "Success"
  | identical => s!"Identical definition of '{o.text}' already exists"
  | typeConflict e => s!"'{o.text}' conflicts with preexisting definition '{e.text}'"
  | binaryPostfixConflict e =>
    s!"'{o.text}' conflicts with '{e.text}'; a name cannot be both binary and postfix"

end Registration

namespace OperatorTable

def isEmpty (t : OperatorTable) : Bool := t.operators.isEmpty

def get? (t : OperatorTable) (name : String) (keyword : Bool) (fixity : Fixity) :
    Option Operator :=
  t.operators.find? fun o => o.spelledAs name keyword && o.fixity == fixity

def contains (t : OperatorTable) (name : String) (keyword : Bool) : Bool :=
  t.operators.any (Operator.spelledAs name keyword)

def isKeyword (t : OperatorTable) (word : String) : Bool := t.contains word true

/-- Inserts an operator in front of the first one that it comes before. -/
def insertBy (before : Operator → Operator → Bool) (o : Operator) : List Operator → List Operator
  | [] => [o]
  | p :: ps => if before o p then o :: p :: ps else p :: insertBy before o ps

def insertOrdered (o : Operator) (os : List Operator) : List Operator :=
  insertBy Operator.precedes o os

/-- Adds an operator unless a definition stands against it. -/
def add (t : OperatorTable) (o : Operator) : OperatorTable × Registration :=
  match t.get? o.name o.keyword o.fixity with
  | some e => (t, if e.same o then .identical else .typeConflict e)
  | none =>
    match o.fixity.exclusive?.bind (t.get? o.name o.keyword) with
    | some e => (t, .binaryPostfixConflict e)
    | none => (⟨insertOrdered o t.operators⟩, .added)

/-- Whether the existing definition `e` cannot stay beside `o`. -/
def excludes (o e : Operator) : Bool :=
  e.spelledAs o.name o.keyword && (e.fixity == o.fixity || some e.fixity == o.fixity.exclusive?)

/-- Adds an operator and drops the definitions that stand against it. -/
def replace (t : OperatorTable) (o : Operator) : OperatorTable :=
  ⟨insertOrdered o (t.operators.filter fun e => !excludes o e)⟩

def remove (t : OperatorTable) (name : String) (keyword : Bool) : OperatorTable :=
  ⟨t.operators.filter fun o => !o.spelledAs name keyword⟩

def spellings (t : OperatorTable) : List (String × Bool) :=
  (t.operators.map fun o => (o.name, o.keyword)).eraseDups

def longestMatch? (t : OperatorTable) (cs : List Char) : Option Nat :=
  ((t.operators.filter fun o => !o.keyword && o.name.toList.isPrefixOf cs).map
    fun o => o.name.toList.length).max?

end OperatorTable

end ConfigScript
