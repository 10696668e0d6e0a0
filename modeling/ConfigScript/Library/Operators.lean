import ConfigScript.Definition

/-! # Stock operators

The operator set that scripts import for arithmetic, comparison and logic. -/

namespace ConfigScript.Library

def binarySign (name : String) (priority : Int) : Operator :=
  ⟨name, false, .binary, none, .plain, Number.ofInt priority⟩

def prefixSign (name : String) : Operator :=
  ⟨name, false, .prefixed, none, .plain, Number.ofInt 9⟩

def assignSign : Operator := ⟨"=", false, .binary, none, .rightAssociative, Number.ofInt 0⟩

/-- The dot that applies function macros; it binds tightest. -/
def accessorSign : Operator := ⟨".", false, .binary, some "", .accessor, Number.ofInt 11⟩

def stockOperators : List Operator :=
  [assignSign,
   binarySign "||" 1, binarySign "&&" 2,
   binarySign "==" 3, binarySign "!=" 3,
   binarySign ">" 4, binarySign "<" 4, binarySign ">=" 4, binarySign "<=" 4,
   binarySign "|" 5, binarySign "&" 5,
   binarySign "+" 6, binarySign "-" 6,
   binarySign "*" 7, binarySign "/" 7,
   binarySign "^" 8, binarySign "**" 8,
   prefixSign "!", prefixSign "-", prefixSign "+",
   accessorSign]

def tableOf (os : List Operator) : OperatorTable := os.foldl (fun t o => (t.add o).1) {}

def operatorsUnit : Definition := { operators := tableOf stockOperators }

end ConfigScript.Library
