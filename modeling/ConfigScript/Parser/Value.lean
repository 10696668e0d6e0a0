import ConfigScript.Parser.Operation
import ConfigScript.Parser.Recovery

/-! # Values

A value is a collection in braces, brackets or parentheses, with or without a name, or a literal.
Each reader here takes the reader of collections one level deeper as an argument; `collection` at
the end ties them together. -/

namespace ConfigScript.Parser

/-- Reads a value; nothing results, with a report, where none stands. -/
def expr (inner : Parser (Option Node)) : Parser (Option Node) := do
  discard
  match ← inner with
  | some value => return some value
  | none =>
    rewind true
    let token ← next true .value
    if token.isLiteral then return some (← primitiveValue token)
    else
      error "Expected value"
      rewind true
      return none

/-- Reads a value; the error value stands for a missing one. -/
def exprOrError (inner : Parser (Option Node)) : Parser Node := do
  match ← expr inner with
  | some value => return value
  | none => substitute

/-- Skips to the end of an entry; the collection goes on unless its closer was found. -/
def resume {α : Type} (inner : Parser (Option Node)) (mode : ReadMode) (closer : TokenKind)
    (a : α) : Parser (Turn α) := do
  if ← skipTo inner mode (entryEnd closer) then return .done a else return .again a

def reportDuplicate (key : String) (position : Nat) : Parser Unit := do
  let severity := if (← get).config.allowDuplicateProperty then Severity.warning else .error
  report ⟨severity, s!"Property '{key}' is already defined", some position, []⟩

/-- Reads what separates an entry from the next, or closes the object. -/
def objectSeparator (inner : Parser (Option Node)) (props : List (String × Node)) :
    Parser (Turn (List (String × Node))) := do
  match (← next false .unexpected).kind with
  | .lineBreak =>
    discard
    if (← next true .key).kind != .comma then rewind false
    return .again props
  | .comma => return .again props
  | .endOfFile =>
    error "Unterminated object"
    return .done props
  | .rightBrace => return .done props
  | _ =>
    error "Each object property should be separated with either line breaks or ','"
    resume inner .key .rightBrace props

def objectProperty (inner : Parser (Option Node)) (key : Token) (props : List (String × Node)) :
    Parser (Turn (List (String × Node))) := do
  discard
  if (← next true .unexpected).kind != .colon then
    error "Expected ':' after property key"
    rewind false
    resume inner .unexpected .rightBrace props
  else
    let duplicate := Properties.contains key.text props
    if duplicate then reportDuplicate key.text key.start
    let value ← exprOrError inner
    noteLost (if duplicate then value.marks else [])
    objectSeparator inner (if duplicate then props else Properties.put key.text value props)

/-- Reads one entry of an object, or its end. -/
def objectEntry (inner : Parser (Option Node)) (props : List (String × Node)) :
    Parser (Turn (List (String × Node))) := do
  let key ← next true .key
  match key.kind with
  | .endOfFile =>
    error "Unterminated object"
    return .done props
  | .rightBrace => return .done props
  | .comma =>
    error "Redundant comma"
    return .again props
  | _ =>
    if key.isLiteral then objectProperty inner key props
    else
      error "Expected property key"
      resume inner .key .rightBrace props

def object (inner : Parser (Option Node)) (name : String) (start : Nat) : Parser Node := do
  let props ← loop (objectEntry inner) []
  return (Node.object name props {}).placedAt start

/-- Reads what separates an element from the next, or closes the list. -/
def listSeparator (inner : Parser (Option Node)) (items : List Node) :
    Parser (Turn (List Node)) := do
  match (← next false .unexpected).kind with
  | .lineBreak =>
    discard
    let token ← next true .unexpected
    if token.kind != .comma then rewind (token.kind == .unexpected)
    return .again items
  | .comma => return .again items
  | .endOfFile =>
    error "Unterminated list"
    return .done items
  | .rightBracket => return .done items
  | _ =>
    error "Each value should be separated with either line breaks or ','"
    resume inner .value .rightBracket items

/-- Reads one element of a list, or its end. -/
def listEntry (inner : Parser (Option Node)) (items : List Node) : Parser (Turn (List Node)) := do
  discard
  let token ← next true .unexpected
  match token.kind with
  | .endOfFile =>
    error "Unterminated list"
    return .done items
  | .rightBracket => return .done items
  | .comma =>
    error "Redundant comma"
    return .again items
  | kind =>
    rewind (kind == .unexpected)
    match ← expr inner with
    | some value => listSeparator inner (items ++ [value])
    | none => listSeparator inner items

def list (inner : Parser (Option Node)) (name : String) (start : Nat) : Parser Node := do
  let items ← loop (listEntry inner) []
  return (Node.list name false items {}).placedAt start

/-- Reads a single term of an operation: a collection or a literal. -/
def term (inner operationInner : Parser (Option Node)) : Parser Node := do
  discard
  match ← operationInner with
  | some value => return value
  | none =>
    rewind false
    let token ← next true .operation
    if token.isLiteral then primitiveValue token
    else
      error "Expected value"
      rewind false
      if ← skipTo inner .unexpected (entryEnd .rightParen) then rewind false
      substitute

/-- Reads what separates a term from the next, or closes the operation. -/
def operationSeparator (items : List Node) : Parser (Turn (List Node)) := do
  discard
  match (← next false .operation).kind with
  | .lineBreak =>
    discard
    if (← next true .operation).kind != .comma then rewind false
    return .again items
  | .comma => return .again items
  | .endOfFile =>
    error "Unterminated operation"
    return .done items
  | .rightParen => return .done items
  | _ =>
    error "Each term should be separated with either line breaks or ','"
    rewind false
    return .again items

/-- Reads one term of an operation with its operators, or the end of the operation. -/
def operationEntry (operand : Parser Node) (items : List Node) : Parser (Turn (List Node)) := do
  discard
  match (← next true .operation).kind with
  | .endOfFile =>
    error "Unterminated operation"
    return .done items
  | .rightParen => return .done items
  | .comma =>
    error "Redundant comma"
    return .again items
  | _ =>
    rewind false
    operationSeparator (items ++ [← operand])

/-- Reads the terms of an operation after its opening parenthesis, with the operators that are
visible there. -/
def operationItems (inner operationInner : Parser (Option Node)) : Parser (List Node) := do
  let levels := (← get).visible.operators.levels
  loop (operationEntry (expression (term inner operationInner) levels)) []

def operation (inner operationInner : Parser (Option Node)) (name : String) (start : Nat) :
    Parser Node := do
  let items ← operationItems inner operationInner
  return (Node.list name true items {}).placedAt start

/-- Parentheses around a single term give that term. -/
def ungroup : Node → Node
  | .list "" true [n] _ => n
  | n => n

/-- Hands a named collection to the macros. A quoted name is never a reference or a call. -/
def namedValue (token : Token) (kind : MacroKind) (n : Node) : Parser (Option Node) := do
  if token.kind = .quoted then return some n
  match ← resolveParam? n with
  | some m => return some m
  | none => return some (← callMacro n kind token.start)

/-- Reads a collection, named or not, inside at most `depth` others. Where none stands, nothing
results and the tokens are given back. -/
def collection : Nat → Bool → Parser (Option Node)
  | 0, _ => do
    exhaust
    return none
  | depth + 1, inOperation => do
    let inner := collection depth false
    let operationInner := collection depth true
    discard
    let token ← next true (if inOperation then .operation else .value)
    match token.kind with
    | .leftBrace => return some (← object inner "" token.start)
    | .leftBracket => return some (← list inner "" token.start)
    | .leftParen => return some (ungroup (← operation inner operationInner "" token.start))
    | _ =>
      if token.isLiteral then
        match (← next inOperation .unexpected).kind with
        | .leftBrace =>
          namedValue token .object (← object inner token.text token.start)
        | .leftBracket =>
          namedValue token .list (← list inner token.text token.start)
        | .leftParen =>
          namedValue token .operation (← operation inner operationInner token.text token.start)
        | _ =>
          rewind true
          return none
      else
        rewind false
        return none

def topCollection : Parser (Option Node) := do collection (← bound) false

/-- Skips after an error that is not inside a collection. -/
def skipStatement (mode : ReadMode) (stop : StopAt) : Parser Unit := do
  let _ ← skipTo topCollection mode stop

end ConfigScript.Parser
