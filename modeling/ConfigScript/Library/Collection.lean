import ConfigScript.Library.Eval

/-! # Collections

Function macros on objects and lists. None changes its input: each gives an updated copy. -/

namespace ConfigScript.Library.Collection

/-- The index that a text denotes, or a report where the text stands. -/
def indexArgument (n : Node) (f : Int → Expansion) : Expansion :=
  match n.expectPrimitive with
  | .error e => .fault e
  | .ok s =>
    match Number.readInt64? s with
    | some i => f i
    | none => ⟨.refused, [Report.errorAt "Expected int" n.position]⟩

/-- The place in a list that an integer denotes. -/
def inRange? (i : Int) (items : List Node) : Option Nat :=
  if 0 ≤ i && i < items.length then some i.toNat else none

def outOfRange (i : Int) (items : List Node) : Expansion :=
  ⟨.refused, [Report.error s!"Index out of range ({i}, size = {items.length})"]⟩

/-- Goes on with an element of a list that must be there. -/
def withElement (index : Node) (items : List Node) (f : Nat → Expansion) : Expansion :=
  indexArgument index fun i =>
    match inRange? i items with
    | some k => f k
    | none => outOfRange i items

def keyArgument (n : Node) (f : String → Expansion) : Expansion :=
  match n.expectPrimitive with
  | .error e => .fault e
  | .ok key => f key

/-- A list made for an answer. -/
def listOf (items : List Node) : Node := .list "" false items {}

def named (self name : Node) : Expansion :=
  keyArgument name fun s => .produced (self.setName s)

def nameOf (self : Node) : Expansion :=
  match self.name? with
  | some s => .produced (Node.value s)
  | none => ⟨.refused, []⟩

def lengthOf (self : Node) : Expansion :=
  match self.properties?, self.expectItems with
  | some props, _ => .produced (Node.value (toString props.length))
  | none, .ok items => .produced (Node.value (toString items.length))
  | none, .error f => .fault f

def withProperties (n : Node) (f : List (String × Node) → Expansion) : Expansion :=
  match n.expectProperties with
  | .ok props => f props
  | .error e => .fault e

def withItems (n : Node) (f : List Node → Expansion) : Expansion :=
  match n.expectItems with
  | .ok items => f items
  | .error e => .fault e

def keysOf (self : Node) : Expansion :=
  withProperties self fun props => .produced (listOf (props.map fun p => Node.value p.1))

def valuesOf (self : Node) : Expansion :=
  withProperties self fun props => .produced (listOf (props.map Prod.snd))

def propertiesOf (self : Node) : Expansion :=
  withProperties self fun props =>
    .produced (listOf (props.map fun p => listOf [Node.value p.1, p.2]))

def setItems (items : List Node) : Node → Node
  | .list name op _ info => .list name op items info
  | n => n

def setProperties (props : List (String × Node)) : Node → Node
  | .object name _ info => .object name props info
  | n => n

def concat (self other : Node) : Expansion :=
  withItems self fun xs => withItems other fun ys => .produced (setItems (xs ++ ys) self)

/-- The properties of the first object, then those of the second with other keys. -/
def mergeProperties (ps qs : List (String × Node)) : List (String × Node) :=
  qs.foldl (fun ps q => if Properties.contains q.1 ps then ps else Properties.put q.1 q.2 ps) ps

def merge (self other : Node) : Expansion :=
  withProperties self fun ps =>
    withProperties other fun qs => .produced (setProperties (mergeProperties ps qs) self)

def get (self index : Node) : Expansion :=
  match self with
  | .object _ props _ =>
    keyArgument index fun key =>
      match Properties.get? key props with
      | some v => .produced v
      | none => ⟨.refused, [Report.error s!"No property '{key}' in object"]⟩
  | _ =>
    withItems self fun items =>
      withElement index items fun k =>
        match items[k]? with
        | some v => .produced v
        | none => ⟨.refused, []⟩

def getOrDefault (self index default : Node) : Expansion :=
  match self with
  | .object _ props _ =>
    keyArgument index fun key => .produced ((Properties.get? key props).getD default)
  | _ =>
    withItems self fun items =>
      indexArgument index fun i =>
        .produced (((inRange? i items).bind fun k => items[k]?).getD default)

def append (self value : Node) : Expansion :=
  withItems self fun items => .produced (setItems (items ++ [value]) self)

def set (self index value : Node) : Expansion :=
  match self with
  | .object _ props _ =>
    keyArgument index fun key => .produced (setProperties (Properties.put key value props) self)
  | _ =>
    withItems self fun items =>
      withElement index items fun k => .produced (setItems (items.set k value) self)

def remove (self index : Node) : Expansion :=
  match self with
  | .object _ props _ =>
    keyArgument index fun key => .produced (setProperties (Properties.erase key props) self)
  | _ =>
    withItems self fun items =>
      withElement index items fun k => .produced (setItems (items.eraseIdx k) self)

def body₁ (f : Node → Expansion) : List Node → Bool → Expansion
  | a :: _, _ => f a
  | _, _ => tooFewArguments

def body₂ (f : Node → Node → Expansion) : List Node → Bool → Expansion
  | a :: b :: _, _ => f a b
  | _, _ => tooFewArguments

def body₃ (f : Node → Node → Node → Expansion) : List Node → Bool → Expansion
  | a :: b :: c :: _, _ => f a b c
  | _, _ => tooFewArguments

def listLike : ShapeSet := ShapeSet.list.union .operation

/-- A macro that takes `self` alone. -/
def accessMacro (name : String) (self : ShapeSet) (f : Node → Expansion) : Macro :=
  libraryMacro name .access [] (some [self]) (body₁ f)

/-- A macro that takes `self` and parameters of the given shapes. -/
def functionMacro (name : String) (params : List (String × ShapeSet)) (self : ShapeSet)
    (run : List Node → Bool → Expansion) : Macro :=
  libraryMacro name .operationFn (params.map fun p => ⟨p.1, none⟩)
    (some (self :: params.map Prod.snd)) run

def macros : List Macro :=
  [functionMacro "named" [("name", .primitive)] .collection (body₂ named),
   accessMacro "name" .collection nameOf,
   accessMacro "size" .collection lengthOf,
   accessMacro "keys" .object keysOf,
   accessMacro "values" .object valuesOf,
   accessMacro "properties" .object propertiesOf,
   functionMacro "concat" [("other", listLike)] listLike (body₂ concat),
   functionMacro "merge" [("other", .object)] .object (body₂ merge),
   functionMacro "get" [("index", .primitive)] .collection (body₂ get),
   functionMacro "getOrDefault" [("index", .primitive), ("default", .any)] .collection
     (body₃ getOrDefault),
   functionMacro "add" [("value", .any)] listLike (body₂ append),
   functionMacro "set" [("index", .primitive), ("value", .any)] .collection (body₃ set),
   functionMacro "remove" [("index", .primitive)] .collection (body₂ remove)]

def unit : Definition :=
  Definition.addMacros { operators := tableOf [accessorSign] } macros

end ConfigScript.Library.Collection
