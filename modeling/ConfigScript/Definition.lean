import ConfigScript.Macro.Registry
import ConfigScript.Operator.Table

/-! # Definitions

The macros and operators that a script defines, or that are visible to it. -/

namespace ConfigScript

structure Definition where
  macros : MacroRegistry := {}
  operators : OperatorTable := {}
  deriving Inhabited

namespace Definition

def isEmpty (d : Definition) : Bool := d.macros.isEmpty && d.operators.isEmpty

def addMacro (d : Definition) (m : Macro) : Definition × List Report :=
  let (macros, rs) := d.macros.add m
  ({ d with macros }, rs)

/-- Registers macros without a word about what they replace. -/
def addMacros (d : Definition) (ms : List Macro) : Definition :=
  ms.foldl (fun d m => (d.addMacro m).1) d

/-- The statements that define everything, operators first, one a line. -/
def text (d : Definition) : String :=
  String.join ((d.operators.operators.map Operator.text ++ d.macros.macros.map Macro.text).map
    fun line => line ++ "\n")

end Definition

/-- What an import gives: the values of a script and what it defines. -/
structure ImportedUnit where
  root : List Node := []
  definition : Definition := {}
  deriving Inhabited

end ConfigScript
