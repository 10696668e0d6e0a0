import ConfigScript.Node.Path
import ConfigScript.Node.Printer
import ConfigScript.Node.ShapeSet
import ConfigScript.Report

/-! # Macros

A macro has a signature (a name and a kind), parameters, and a body. A template body is a node with
a list of edits that put arguments and the results of other macros into it; a native body is a
function of the arguments. -/

namespace ConfigScript

/-- What a macro is applied to. The four function kinds take a pair of `self` and arguments, or
`self` alone. -/
inductive MacroKind
  | constant
  | object
  | list
  | operation
  | access
  | objectFn
  | listFn
  | operationFn
  deriving DecidableEq, Repr

namespace MacroKind

/-- Function kinds receive the value on the left of an accessor. -/
def isFunction : MacroKind → Bool
  | access => true
  | objectFn => true
  | listFn => true
  | operationFn => true
  | _ => false

def isPositional : MacroKind → Bool
  | list => true
  | operation => true
  | listFn => true
  | operationFn => true
  | _ => false

def isKeyed : MacroKind → Bool
  | object => true
  | objectFn => true
  | _ => false

def takesParameters (k : MacroKind) : Bool := k.isPositional || k.isKeyed

def asFunction : MacroKind → MacroKind
  | constant => access
  | object => objectFn
  | list => listFn
  | operation => operationFn
  | k => k

def label : MacroKind → String
  | constant => "constant"
  | object => "object"
  | list => "list"
  | operation => "operation"
  | access => "access"
  | objectFn => "object function"
  | listFn => "list function"
  | operationFn => "operation function"

def rank : MacroKind → Nat
  | constant => 0
  | object => 1
  | list => 2
  | operation => 3
  | access => 4
  | objectFn => 5
  | listFn => 6
  | operationFn => 7

def bracket (inside : String) : MacroKind → String
  | object => "\x7b" ++ inside ++ "\x7d"
  | objectFn => "\x7b" ++ inside ++ "\x7d"
  | list => "[" ++ inside ++ "]"
  | listFn => "[" ++ inside ++ "]"
  | operation => "(" ++ inside ++ ")"
  | operationFn => "(" ++ inside ++ ")"
  | _ => ""

end MacroKind

/-- Macros are looked up and overloaded by name and kind. -/
structure Signature where
  name : String
  kind : MacroKind
  deriving DecidableEq, Repr

namespace Signature

def text (s : Signature) : String :=
  (if s.kind.isFunction then "fn " else "") ++ Text.writeName s.name ++ s.kind.bracket ""

def precedes (a b : Signature) : Bool :=
  if a.name = b.name then a.kind.rank < b.kind.rank else a.name < b.name

end Signature

structure Param where
  name : String
  default : Option Node
  deriving Repr

namespace Param

def isOptional (p : Param) : Bool := p.default.isSome

/-- The parameter as it is declared; `brief` leaves the default value out. -/
def text (brief : Bool) (p : Param) : String :=
  Text.writeName p.name ++
    match p.default with
    | none => ""
    | some v => " = " ++ if brief then "/* default */" else v.text

end Param

def requiredParams (ps : List Param) : List Param := ps.filter fun p => !p.isOptional

def requiredCount (ps : List Param) : Nat := (requiredParams ps).length

/-- Whether every optional parameter comes after every required one. -/
def optionalLast (ps : List Param) : Bool :=
  (ps.dropWhile fun p => !p.isOptional).all Param.isOptional

def sameNames (ps qs : List Param) : Bool := ps.map Param.name == qs.map Param.name

/-- What a macro shows of itself: everything but its body. The inferences are the shapes that each
argument must have, with `self` first. -/
structure MacroHead where
  signature : Signature
  params : List Param
  inferences : Option (List ShapeSet)
  deriving Repr

/-- What becomes of applying a macro. A refusal has been reported; a fault or a crash is the
failure of native code. -/
inductive MacroResult
  | produced (n : Node)
  | refused
  | fault (f : Fault)
  | crashed (message : Option String)
  deriving Repr

structure Expansion where
  result : MacroResult
  reports : List Report
  deriving Repr

mutual

inductive Macro
  | template (head : MacroHead) (body : Node) (edits : List Edit)
  | native (head : MacroHead) (run : List Node → Bool → Expansion)

/-- One step of filling in a template: put an argument at a path, give the node at a path the name
that an argument holds, or apply a macro to the node at a path. -/
inductive Edit
  | value (path : Path) (index : Nat)
  | rename (path : Path) (index : Nat)
  | call (path : Path) (callee : Macro)

end

namespace Macro

def head : Macro → MacroHead
  | template h _ _ => h
  | native h _ => h

def signature (m : Macro) : Signature := m.head.signature

def name (m : Macro) : String := m.signature.name

def kind (m : Macro) : MacroKind := m.signature.kind

def params (m : Macro) : List Param := m.head.params

def edits : Macro → List Edit
  | template _ _ es => es
  | native _ _ => []

/-- A template that nothing is put into. -/
def isConstant : Macro → Bool
  | template _ _ es => es.isEmpty
  | native _ _ => false

def usage (brief : Bool) (m : Macro) : String :=
  Text.writeName m.name
    ++ m.kind.bracket (String.intercalate ", " (m.params.map (Param.text brief)))

def text (m : Macro) : String :=
  (if m.kind.isFunction then "fn " else "macro ") ++ m.usage false ++ " : "
    ++ match m with
      | template _ body _ => body.text
      | native _ _ => "/* native */"

def checkHead (h : MacroHead) : Except Fault Unit :=
  let kind := h.signature.kind
  if !kind.takesParameters && !h.params.isEmpty then
    .error (.invalidMacro h.signature.name "Constant definitions cannot have parameter")
  else if kind.isPositional && !optionalLast h.params then
    .error (.invalidMacro h.signature.name
      (s!"Optional parameters of {kind.label} macro should be consecutive, "
        ++ "placed at end of the parameter list"))
  else .ok ()

end Macro

namespace Edit

def path : Edit → Path
  | value p _ => p
  | rename p _ => p
  | call p _ => p

/-- What the edit does, without its place. -/
def action : Edit → String
  | value _ i => s!"value replacement of parameter #{i}"
  | rename _ i => s!"name replacement of parameter #{i}"
  | call _ m => s!"call to macro {m.signature.text}"

end Edit

end ConfigScript
