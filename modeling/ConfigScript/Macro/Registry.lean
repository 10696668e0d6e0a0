import ConfigScript.Macro.Overload

/-! # Macro registries

The macros that are known at some point of a script, ordered by signature; the overloads of one
signature stand in the order of their registration. -/

namespace ConfigScript

structure MacroRegistry where
  macros : List Macro := []
  deriving Inhabited

def replacedReport (severity : Severity) (verb : String) (new : Macro) (old : List Macro) :
    Report :=
  ⟨severity,
    s!"New macro {new.signature.text} {verb} {old.length} preexisting macro(s)."
      ++ "\n  Preexisting macro(s):"
      ++ String.join (old.map fun m => "\n    " ++ m.usage true)
      ++ "\n  New macro:\n    " ++ new.usage true,
    none, []⟩

namespace MacroRegistry

def isEmpty (r : MacroRegistry) : Bool := r.macros.isEmpty

def group (r : MacroRegistry) (s : Signature) : List Macro :=
  r.macros.filter (·.signature == s)

def contains (r : MacroRegistry) (s : Signature) : Bool := r.macros.any (·.signature == s)

def signatures (r : MacroRegistry) : List Signature := (r.macros.map Macro.signature).eraseDups

/-- Puts a macro after all those of its own and of earlier signatures. -/
def insertOrdered (new : Macro) : List Macro → List Macro
  | [] => [new]
  | m :: ms =>
    if new.signature.precedes m.signature then new :: m :: ms else m :: insertOrdered new ms

/-- Registers a macro. The overloads it overwrites are dropped with a warning, and those it may
overlap with are announced. -/
def add (r : MacroRegistry) (new : Macro) : MacroRegistry × List Report :=
  let old := r.group new.signature
  let gone (m : Macro) : Bool :=
    m.signature == new.signature && (!new.kind.takesParameters || new.overwrites m)
  let overwritten := old.filter gone
  let overlapping := old.filter fun m => !gone m && new.overlaps m
  let warnings :=
    (if overwritten.isEmpty then []
      else [replacedReport .warning "overwrites" new overwritten])
      ++ (if overlapping.isEmpty then []
      else [replacedReport .info "possibly overlaps with" new overlapping])
  (⟨insertOrdered new (r.macros.filter fun m => !gone m)⟩, warnings)

def remove (r : MacroRegistry) (s : Signature) : MacroRegistry :=
  ⟨r.macros.filter (·.signature != s)⟩

end MacroRegistry

end ConfigScript
