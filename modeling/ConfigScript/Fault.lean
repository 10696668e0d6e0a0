/-! # Faults

What the program around a script can get wrong: reading files, taking a value for what it is not,
building macros and operators of an impossible form, and native macro code that fails. -/

namespace ConfigScript

inductive Fault
  | unreadable (path : String)
  | invalidPath (path : String)
  | notANumber (value : String)
  | notAnInteger (value : String)
  | notABoolean (value : String)
  | unexpectedNode (expected found : String)
  | invalidMacro (name reason : String)
  | invalidOperator (name reason : String)
  | failedMacro (name reason : String)
  | failedProvider (path reason : String)
  | failedCompilation (errors : Nat)
  | invalidConfig
  deriving DecidableEq, Repr

namespace Fault

/-- The part of the program a fault belongs to, and its kind within that part. -/
def code : Fault → String
  | unreadable _ => "among::host::io"
  | invalidPath _ => "among::value::invalid_path"
  | notANumber _ => "among::value::not_a_number"
  | notAnInteger _ => "among::value::not_an_integer"
  | notABoolean _ => "among::value::not_a_boolean"
  | unexpectedNode _ _ => "among::value::unexpected_node"
  | invalidMacro _ _ => "among::macro::invalid_definition"
  | invalidOperator _ _ => "among::operator::invalid_definition"
  | failedMacro _ _ => "among::macro::fault"
  | failedProvider _ _ => "among::host::provider"
  | failedCompilation _ => "among::compile::failed"
  | invalidConfig => "among::host::config"

def message : Fault → String
  | unreadable path => s!"cannot read '{path}'"
  | invalidPath path => s!"node path '{path}' does not point at an existing node"
  | notANumber value => s!"value '{value}' is not a number"
  | notAnInteger value => s!"value '{value}' is not an integer"
  | notABoolean value => s!"value '{value}' cannot be parsed to boolean"
  | unexpectedNode expected found => s!"expected {expected}, found {found}"
  | invalidMacro name reason => s!"invalid macro '{name}': {reason}"
  | invalidOperator name reason => s!"invalid operator '{name}': {reason}"
  | failedMacro name reason => s!"macro '{name}' failed: {reason}"
  | failedProvider path reason => s!"provider failed to resolve '{path}': {reason}"
  | failedCompilation errors => s!"compilation failed with {errors} error(s)"
  | invalidConfig => "invalid configuration"

def help? : Fault → Option String
  | failedCompilation _ => some "run `among check` on the file to list every report"
  | failedMacro _ _ => some "native macros should report expected failures instead of erroring"
  | invalidConfig => some "the configuration file is JSON, see `EngineConfig` for the keys"
  | _ => none

end Fault

end ConfigScript
