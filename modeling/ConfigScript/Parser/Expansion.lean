import ConfigScript.Macro.Apply
import ConfigScript.Parser.State

/-! # Expansion

Every primitive, named collection and operation is handed to the macros as soon as it is read.
Inside a macro body the call is recorded instead of made. -/

namespace ConfigScript.Parser

/-- Marks a node that refers to a parameter of the macro being read, if it does. -/
def resolveParam? (n : Node) : Parser (Option Node) := do
  match (← get).template.bind fun t => t.resolveParam? n with
  | none => return none
  | some (n, t, rs) =>
    modify fun s => { s with template := some t }
    addReports rs
    return some n

def failureReport (f : Fault) (position : Nat) : Report :=
  ⟨.error, "Unexpected error on macro processing", some position, [f.message]⟩

/-- What stands in the script after a macro of a name was applied. -/
def expanded (name : String) (position : Nat) : MacroResult → Parser Node
  | .produced n => return (if n.position.isNone then n.placedAt position else n).asMade
  | .refused => substitute
  | .fault f => do
    report (failureReport f position)
    substitute
  | .crashed message => do
    report (failureReport (.failedMacro name (message.getD "panicked")) position)
    substitute

/-- Applies the macro that a node calls, or records the call inside a macro body. A node that calls
none stays as it is; one that cannot be expanded becomes the error value. -/
def callMacro (n : Node) (kind : MacroKind) (position : Nat) : Parser Node := do
  let s ← get
  let name := Template.wordOf n
  let group := s.visible.macros.group ⟨name, kind⟩
  if group.isEmpty then return n
  let (found, rs) := searchGroup kind group n
  addReports (rs.map (Report.orAt (some position)))
  match found, s.template with
  | none, _ => substitute
  | some m, some t =>
    let (n, t) := t.deferCall m n
    modify fun s => { s with template := some t }
    return n
  | some m, none =>
    let e := m.apply n s.config.copyConstants
    addReports (e.reports.map (Report.orAt (some position)))
    expanded name position e.result

/-- The value of a literal that stands alone. A quoted one is never a reference or a call. -/
def primitiveValue (token : Token) : Parser Node := do
  let value := (Node.value token.text).placedAt token.start
  if token.kind = .quoted then return value
  match ← resolveParam? value with
  | some n => return n
  | none => callMacro value .constant token.start

/-- The call that an accessor makes: `a.b` calls `b` on `a`, and `a.f[x]` calls `f` on `a` and
`[x]`. The operator's name stands in front of the name called. -/
def accessorCall (a b : Node) (operator : Operator) (position : Nat) : Parser Node := do
  let call (name : String) (items : List Node) : Node :=
    (Node.list (operator.produces ++ name) false items {}).placedAt position
  noteAccess b
  match b with
  | .primitive name _ => callMacro (call name [a]) .access position
  | .object name props info =>
    callMacro (call name [a, .object "" props { info with mark := none }]) .objectFn position
  | .list name op items info =>
    callMacro (call name [a, .list "" op items { info with mark := none }])
      (if op then .operationFn else .listFn) position

def operatorCall (operator : Operator) (operands : List Node) (position : Nat) : Parser Node :=
  callMacro ((Node.list operator.produces true operands {}).placedAt position) .operation position

end ConfigScript.Parser
