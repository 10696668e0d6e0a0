import ConfigScript.Operator.Level
import ConfigScript.Parser.Expansion

/-! # Operator expressions

An expression is read level by level, from the loosest operators to the tightest; below the last
level stand single terms. -/

namespace ConfigScript.Parser

def operatorOf? (l : Level) (t : Token) : Option Operator :=
  if t.isOperatorOrKeyword then l.get? t.text (t.kind == .keyword) else none

/-- Reads an operator of a level, if one comes next. -/
def operator? (l : Level) (skipBreaks : Bool) : Parser (Option (Operator × Nat)) := do
  discard
  let token ← next skipBreaks .operation
  match operatorOf? l token with
  | some o => return some (o, token.start)
  | none =>
    rewind false
    return none

/-- `a op b op c` with the operands taken together from the left. -/
def leftAssociative (l : Level) (operand : Parser Node) : Parser Node := do
  let a ← operand
  loop (fun a => do
    match ← operator? l false with
    | none => return .done a
    | some (o, position) =>
      let b ← operand
      if o.isAccessor then return .again (← accessorCall a b o position)
      else return .again (← operatorCall o [a, b] position)) a

/-- `a op b op c` with the operands taken together from the right. -/
def rightAssociative (l : Level) (operand : Parser Node) : Nat → Parser Node
  | 0 => do
    exhaust
    return Node.errorValue
  | n + 1 => do
    let a ← operand
    match ← operator? l false with
    | none => return a
    | some (o, position) =>
      let b ← rightAssociative l operand n
      operatorCall o [a, b] position

/-- An operand followed by operators. -/
def postfixed (l : Level) (operand : Parser Node) : Parser Node := do
  let a ← operand
  loop (fun a => do
    match ← operator? l false with
    | none => return .done a
    | some (o, position) => return .again (← operatorCall o [a] position)) a

/-- Operators followed by an operand. -/
def prefixed (l : Level) (operand : Parser Node) : Nat → Parser Node
  | 0 => do
    exhaust
    return Node.errorValue
  | n + 1 => do
    match ← operator? l true with
    | none => operand
    | some (o, position) =>
      let a ← prefixed l operand n
      operatorCall o [a] position

/-- Reads an expression whose operators are those of the given levels. -/
def expression (term : Parser Node) : List Level → Parser Node
  | [] => term
  | l :: ls => do
    let operand := expression term ls
    match l.fixity with
    | .binary =>
      if l.rightAssociative then rightAssociative l operand (← bound)
      else leftAssociative l operand
    | .postfixed => postfixed l operand
    | .prefixed => prefixed l operand (← bound)

end ConfigScript.Parser
