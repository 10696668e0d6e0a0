import ConfigScript.Node.Basic

/-! # Sets of shapes

The shapes a macro accepts for an argument, as a set of flags, one bit for each shape. -/

namespace ConfigScript

structure ShapeSet where
  bits : UInt8
  deriving DecidableEq, Repr, Inhabited

namespace ShapeSet

def ofShape : Shape → ShapeSet
  | .primitive => ⟨1⟩
  | .unnamedObject => ⟨2⟩
  | .unnamedList => ⟨4⟩
  | .unnamedOperation => ⟨8⟩
  | .namedObject => ⟨16⟩
  | .namedList => ⟨32⟩
  | .namedOperation => ⟨64⟩

def union (a b : ShapeSet) : ShapeSet := ⟨a.bits ||| b.bits⟩

def inter (a b : ShapeSet) : ShapeSet := ⟨a.bits &&& b.bits⟩

def diff (a b : ShapeSet) : ShapeSet := ⟨a.bits &&& ~~~b.bits⟩

/-- Whether every shape of `b` is in `a`. -/
def contains (a b : ShapeSet) : Bool := a.bits &&& b.bits == b.bits

def primitive : ShapeSet := ofShape .primitive

def object : ShapeSet := ⟨2 + 16⟩

def list : ShapeSet := ⟨4 + 32⟩

def operation : ShapeSet := ⟨8 + 64⟩

def unnamed : ShapeSet := ⟨2 + 4 + 8⟩

def named : ShapeSet := ⟨16 + 32 + 64⟩

def collection : ShapeSet := ⟨2 + 4 + 8 + 16 + 32 + 64⟩

def any : ShapeSet := ⟨127⟩

/-- Drops the bit that stands for no shape. -/
def normalize (a : ShapeSet) : ShapeSet := a.inter any

def isEmpty (a : ShapeSet) : Bool := a.normalize.bits == 0

def accepts (a : ShapeSet) (n : Node) : Bool :=
  a.normalize == any || (a.inter (ofShape n.shape)).bits != 0

/-- The families of shapes, each with the words for both, the unnamed and the named form. -/
def families : List (ShapeSet × Shape × Shape × String) :=
  [(object, .unnamedObject, .namedObject, "Object"),
   (list, .unnamedList, .namedList, "List"),
   (operation, .unnamedOperation, .namedOperation, "Operation")]

/-- The words for the members of one family that are in the set. -/
def describeFamily (a : ShapeSet) : ShapeSet × Shape × Shape × String → List String
  | (both, unnamedShape, namedShape, word) =>
    if a.contains both then [word]
    else if a.contains (ofShape unnamedShape) then ["Unnamed " ++ word]
    else if a.contains (ofShape namedShape) then ["Named " ++ word]
    else []

/-- The words for the collections in the set; all named or all unnamed ones are taken together. -/
def describeCollections (a : ShapeSet) : List String :=
  if a.contains collection then ["Collection"]
  else if a.contains named then
    "Named Collection" :: families.flatMap (a.diff named).describeFamily
  else if a.contains unnamed then
    "Unnamed Collection" :: families.flatMap (a.diff unnamed).describeFamily
  else families.flatMap a.describeFamily

def text (a : ShapeSet) : String :=
  let a := a.normalize
  if a = any then "Anything"
  else
    let parts := (if a.contains primitive then ["Primitive"] else []) ++ a.describeCollections
    if parts.isEmpty then "Invalid" else String.intercalate " or " parts

end ShapeSet

end ConfigScript
