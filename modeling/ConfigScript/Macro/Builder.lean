import ConfigScript.Macro.Basic

/-! # Building macros

A macro is assembled from its parameters, with or without default values and accepted shapes. The
first mistake is kept and becomes the fault of the finished macro. -/

namespace ConfigScript

def checkParams (ps : List Param) : Except Fault Unit :=
  match ps.zipIdx.find? fun (p, i) => (ps.take i).any fun q => q.name == p.name with
  | none => .ok ()
  | some (p, _) => .error (.invalidMacro p.name s!"Duplicated parameter '{p.name}'")

structure MacroBuilder where
  signature : Signature
  params : List Param := []
  inferences : Option (List ShapeSet) := none
  mistake : Option Fault := none

namespace MacroBuilder

def start (name : String) (kind : MacroKind) : MacroBuilder := { signature := ⟨name, kind⟩ }

def fail (b : MacroBuilder) (reason : String) : MacroBuilder :=
  { b with mistake := b.mistake.or (some (.invalidMacro b.signature.name reason)) }

/-- The list of accepted shapes, made for the parameters so far if there is none yet. -/
def inferencesOrAny (b : MacroBuilder) : List ShapeSet :=
  b.inferences.getD
    (List.replicate (b.params.length + if b.signature.kind.isFunction then 1 else 0) .any)

def param (b : MacroBuilder) (name : String) (default : Option Node) (shapes : ShapeSet) :
    MacroBuilder :=
  let shapes := shapes.normalize
  if shapes.isEmpty then b.fail s!"Type inference of parameter '{name}' has no valid input"
  else
    let inferences :=
      if shapes = .any then b.inferences else some b.inferencesOrAny
    { b with
      params := b.params ++ [⟨name, default⟩]
      inferences := inferences.map (· ++ [shapes]) }

/-- Restricts the shapes of `self`. -/
def inferSelf (b : MacroBuilder) (shapes : ShapeSet) : MacroBuilder :=
  if !b.signature.kind.isFunction then b.fail "Cannot infer self type of non-function macros"
  else if shapes.isEmpty then b.fail "Type inference of self has no valid input"
  else { b with inferences := some (b.inferencesOrAny.set 0 shapes.normalize) }

def head (b : MacroBuilder) : Except Fault MacroHead := do
  match b.mistake with
  | some f => throw f
  | none => pure ()
  checkParams b.params
  let h : MacroHead := ⟨b.signature, b.params, b.inferences⟩
  Macro.checkHead h
  return h

def template (b : MacroBuilder) (body : Node) (edits : List Edit) : Except Fault Macro :=
  b.head.map fun h => .template h body edits

def native (b : MacroBuilder) (run : List Node → Bool → Expansion) : Except Fault Macro :=
  b.head.map fun h => .native h run

end MacroBuilder

end ConfigScript
