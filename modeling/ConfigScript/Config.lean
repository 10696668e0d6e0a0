import ConfigScript.Fault
import ConfigScript.Json.Reading
import ConfigScript.Token.Basic

/-! # Configuration

The options under which scripts are compiled, and their form as JSON: an object in which each option
may be left out, or an array of the first options in order. Members with other keys are ignored. -/

namespace ConfigScript

def UnicodePolicy.label : UnicodePolicy → String
  | .error => "error"
  | .warn => "warn"
  | .ignore => "ignore"

def UnicodePolicy.ofLabel? : String → Option UnicodePolicy
  | "error" => some .error
  | "warn" => some .warn
  | "ignore" => some .ignore
  | _ => none

structure Config where
  allowDuplicateProperty : Bool := false
  allowInvalidOperator : Bool := false
  copyConstants : Bool := true
  unicodePolicy : UnicodePolicy := .error
  deriving DecidableEq, Repr, Inhabited

namespace Config

/-- What a JSON form says about the option with the given place and key. -/
def given (index : Nat) (key : String) : Json → List Json
  | .object members => (members.filter fun m => m.1 == some key).map Prod.snd
  | .array items => items[index]?.toList
  | _ => []

def option? {α : Type} (read? : Json → Option α) (default : α) : List Json → Option α
  | [] => some default
  | [j] => read? j
  | _ => none

/-- A policy is its label, which may also stand as the key of a single null member. -/
def policy? : Json → Option UnicodePolicy
  | .string (some label) => UnicodePolicy.ofLabel? label
  | .object [(some label, .null)] => UnicodePolicy.ofLabel? label
  | _ => none

/-- Whether a JSON value has the form of a configuration, the options apart. -/
def isForm : Json → Bool
  | .object members => members.all fun m => m.1.isSome
  | .array items => items.length ≤ 4
  | _ => false

def ofJson? (j : Json) : Option Config :=
  if isForm j then do
    let d : Config := {}
    return {
      allowDuplicateProperty :=
        ← option? Json.bool? d.allowDuplicateProperty
          (given 0 "allow_duplicate_object_property" j)
      allowInvalidOperator :=
        ← option? Json.bool? d.allowInvalidOperator
          (given 1 "allow_invalid_operator_registration" j)
      copyConstants :=
        ← option? Json.bool? d.copyConstants (given 2 "copy_macro_constant" j)
      unicodePolicy :=
        ← option? policy? d.unicodePolicy (given 3 "invalid_unicode_handling" j) }
  else none

def ofText (text : String) : Except Fault Config :=
  match (Json.read? text).bind ofJson? with
  | some c => .ok c
  | none => .error .invalidConfig

end Config

end ConfigScript
