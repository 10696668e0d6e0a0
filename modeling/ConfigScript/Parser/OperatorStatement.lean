import ConfigScript.Parser.Value

/-! # Operator statements

`operator` and `keyword` statements give a spelling one or more clauses, joined by `and`. A clause
has a fixity, properties and a priority; the clauses share an optional alias. -/

namespace ConfigScript.Parser

/-- A clause of an operator statement. -/
structure OperatorClause where
  fixity : Fixity
  property : OperatorProperty
  priority : Option Number
  deriving DecidableEq, Repr

/-- A clause while its words are read. -/
structure ClauseWords where
  fixity : Option Fixity := none
  properties : List String := []
  priority : Option Number := none
  invalid : Bool := false
  deriving DecidableEq, Repr

def fixityOfWord? : String → Option Fixity
  | "binary" => some .binary
  | "prefix" => some .prefixed
  | "postfix" => some .postfixed
  | _ => none

def propertyWords : List String := ["left-associative", "right-associative", "accessor"]

def expect (kind : TokenKind) : Parser Unit := do
  if (← next true .unexpected).kind != kind then
    error s!"Expected {kind.label}"
    skipStatement .unexpected (closerOnly kind)

def priority (c : ClauseWords) : Parser ClauseWords := do
  discard
  match (← next true .value).number? with
  | some x =>
    expect .rightParen
    return { c with priority := some x }
  | none =>
    error "Number expected"
    rewind false
    skipStatement .unexpected (closerOnly .rightParen)
    return { c with invalid := true }

/-- Reads what ends a clause, if it is not the word `and`. -/
def endOfClause (c : ClauseWords) : TokenKind → Parser ClauseWords
  | .leftParen => priority c
  | .colon => do
    rewind false
    return c
  | .lineBreak => do
    rewind false
    return c
  | .comma => do
    rewind false
    return c
  | .endOfFile => return c
  | _ => do
    error "Expected keyword"
    skipStatement .unexpected statementEnd
    return c

def addFixity (c : ClauseWords) (f : Fixity) : Parser ClauseWords := do
  match c.fixity with
  | none => return { c with fixity := some f }
  | some g =>
    error s!"Operator type defined twice: '{g.label}' and '{f.label}'"
    return { c with invalid := true }

def addProperty (c : ClauseWords) (word : String) : Parser ClauseWords := do
  if c.properties.contains word then
    error s!"'{word}' defined twice"
    return { c with invalid := true }
  else return { c with properties := c.properties ++ [word] }

/-- Reads one word of a clause, or its end. -/
def clauseWord (c : ClauseWords) : Parser (Turn ClauseWords) := do
  discard
  let token ← next false .plainWord
  let word := token.statementWord
  match fixityOfWord? word with
  | some f => return .again (← addFixity c f)
  | none =>
    if propertyWords.contains word then return .again (← addProperty c word)
    else if word = "and" then
      rewind false
      return .done c
    else if word.isEmpty then return .done (← endOfClause c token.kind)
    else
      error ("Unknown operator property; 'binary', 'prefix', 'postfix', "
        ++ "'left-associative', 'right-associative' or 'accessor' expected")
      return .again c

def propertyConflict? (fixity : Fixity) (properties : List String) : Option String :=
  if fixity ≠ .binary ∧ !properties.isEmpty then
    some "Prefix and postfix operators cannot have additional properties"
  else if properties.contains "left-associative" && properties.contains "right-associative" then
    some "'left-associative' and 'right-associative' at the same place"
  else if properties.contains "right-associative" && properties.contains "accessor" then
    some "Cannot be 'right-associative' and 'accessor' at the same time"
  else none

def propertyOfWords (properties : List String) : OperatorProperty :=
  if properties.contains "right-associative" then .rightAssociative
  else if properties.contains "accessor" then .accessor
  else .plain

/-- Reads a clause; nothing results if it is not valid, and that has been reported. -/
def clause : Parser (Option OperatorClause) := do
  let c ← loop clauseWord {}
  if c.invalid then return none
  match c.fixity with
  | none =>
    error "Missing operator type; needs either 'binary', 'prefix' or 'postfix'"
    return none
  | some fixity =>
    match propertyConflict? fixity c.properties with
    | some message =>
      error message
      return none
    | none => return some ⟨fixity, propertyOfWords c.properties, c.priority⟩

/-- The clauses read so far, and the token after the last one. -/
structure Clauses where
  valid : List OperatorClause := []
  invalid : Bool := false
  after : Option Token := none
  deriving DecidableEq, Repr

/-- Reads one clause and the token after it. -/
def clauseTurn (cs : Clauses) : Parser (Turn Clauses) := do
  let c ← clause
  let cs : Clauses :=
    match c with
    | some c => { cs with valid := cs.valid ++ [c] }
    | none => { cs with invalid := true }
  discard
  let token ← next true .plainWord
  if token.statementWord = "and" then return .again cs
  else return .done { cs with after := some token }

/-- Adds an operator to what the script can use and to what it defines. -/
def registerOperator (start : Nat) (o : Operator) : Parser Unit := do
  let s ← get
  let (visible, result) := s.visible.operators.add o
  if result.isAccepted then
    set { s with
      visible := { s.visible with operators := visible }
      exported := { s.exported with operators := (s.exported.operators.add o).1 } }
  else if s.config.allowInvalidOperator then
    report (.warningAt (result.message o) (some start))
    modify fun s => { s with
      visible := { s.visible with operators := s.visible.operators.replace o }
      exported := { s.exported with operators := s.exported.operators.replace o } }
  else report (.errorAt (result.message o) (some start))

def registerClauses (name : String) (keyword : Bool) (substitute : Option String) (start : Nat) :
    List OperatorClause → Parser Unit
  | [] => return
  | c :: cs => do
    match Operator.create name keyword c.fixity substitute c.property c.priority with
    | .ok o => registerOperator start o
    | .error f => report (.errorAt f.message (some start))
    registerClauses name keyword substitute start cs

/-- Reads the alias after a colon. Tells whether the statement can go on. -/
def readAlias (after : Token) : Parser (Bool × Option String) := do
  if after.kind = .colon then
    let token ← next true .value
    if token.isLiteral then return (true, token.literal)
    else
      error "Expected literal"
      skipStatement .unexpected statementEnd
      return (false, none)
  else
    rewind after.isLiteral
    return (true, none)

end ConfigScript.Parser
