import ConfigScript.Library.Collection
import ConfigScript.Library.Format

/-! # The library

The definitions that every script can import by name. -/

namespace ConfigScript.Library

def definitions : List (String × Definition) :=
  [("default_operator", operatorsUnit), ("default_operators", operatorsUnit), ("eval", evalUnit),
   ("collection", Collection.unit), ("collections", Collection.unit), ("format", formatUnit)]

end ConfigScript.Library
