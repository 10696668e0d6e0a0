import ConfigScript.Parser.OperatorStatement

/-! # Statements

A script is a sequence of statements: definitions of macros and operators, imports, withdrawals of
either, and values. Reading a statement that imports stops before the import; what is imported is
handed to `finishImport`. -/

namespace ConfigScript.Parser

/-- What an import is for. -/
inductive Purpose
  | use (isPublic : Bool)
  | forget
  deriving DecidableEq, Repr

/-- What reading a statement comes to. -/
inductive Statement
  | endOfFile
  | complete
  | importing (path : String) (start : Nat) (purpose : Purpose)
  deriving DecidableEq, Repr

/-- Reads the end of a statement, if it comes next: a line break, a comma or the end of file. -/
def endStatement : Parser Bool := do
  discard
  let token ← next false .unexpected
  match token.kind with
  | .lineBreak =>
    discard
    let token ← next true .unexpected
    if token.kind != .comma then rewind (token.kind == .unexpected)
    return true
  | .endOfFile => return true
  | .comma => return true
  | kind =>
    rewind (kind == .unexpected)
    return false

def expectEnd (message : String) : Parser Unit := do
  if !(← endStatement) then
    error message
    skipStatement .unexpected statementEnd

def definitionName (mode : ReadMode) : Parser (Option String) := do
  discard
  let token ← next true mode
  if !token.isLiteral then
    error "Expected name"
    rewind false
    skipStatement mode lineEnd
  return token.literal

/-! ## Values -/

def pushValue (n : Node) : Parser Unit := do
  modify fun s => { s with root := s.root ++ [n] }
  let _ ← endStatement

/-- Reads a value at the top level, which starts with a token that has been read. -/
def valueStatement (first : Token) : Parser Unit := do
  rewind first.isSimpleLiteral
  match ← topCollection with
  | some value => pushValue value
  | none =>
    let token ← next true .value
    if token.isLiteral then pushValue ((Node.value token.text).placedAt token.start)
    else if token.kind = .comma then error "Redundant comma"
    else
      error ("Top level statements can only be macro/operator/keyword definition, "
        ++ "undef statement, or values.")
      skipStatement .unexpected statementEnd

/-! ## Macros -/

def closerOf? : MacroKind → Option TokenKind
  | .object => some .rightBrace
  | .objectFn => some .rightBrace
  | .list => some .rightBracket
  | .listFn => some .rightBracket
  | .operation => some .rightParen
  | .operationFn => some .rightParen
  | _ => none

/-- Reads the default value of a parameter, if there is one, and the token after it. -/
def defaultValue : Parser (Option Node × Token) := do
  let token ← next true .paramName
  if token.kind = .equals then
    let value ← outsideTemplate (exprOrError topCollection)
    return (some value, ← next true .paramName)
  else return (none, token)

/-- Skips after an error among the parameters, which makes the definition invalid. -/
def resumeParams (closer : TokenKind) (t : Template) : Parser (Turn Template) :=
  resume topCollection .paramName closer t.invalidate

/-- Reads one parameter, or the end of the parameters. -/
def paramTurn (closer : TokenKind) (t : Template) : Parser (Turn Template) := do
  let token ← next true .paramName
  if token.kind = closer ∨ token.kind = .endOfFile then return .done t
  else if token.kind ≠ .paramName then
    error "Expected parameter name"
    resumeParams closer t
  else
    let (default, after) ← defaultValue
    let (t, rs) := t.addParam token.text default token.start
    addReports rs
    if after.kind = closer then return .done t
    else if after.kind = .comma then return .again t
    else
      error s!"Expected ',' or {closer.label}"
      resumeParams closer t

def params (t : Template) : Parser (Option Template) := do
  match closerOf? t.kind with
  | none => return some t
  | some closer =>
    let t ← loop (paramTurn closer) t
    discard
    if (← next true .unexpected).kind = .colon then return some t
    else
      error "Expected ':' after parameter definition"
      rewind false
      skipStatement .word lineEnd
      return none

/-- Makes a macro known to the script and to those that import it. -/
def registerMacro (start : Nat) (m : Macro) : Parser Unit := do
  let s ← get
  let (visible, rs) := s.visible.addMacro m
  addReports (rs.map (Report.orAt (some start)))
  modify fun s => { s with visible, exported := (s.exported.addMacro m).1 }

def macroBody (t : Template) : Parser Unit := do
  modify fun s => { s with template := some t }
  let body ← exprOrError topCollection
  let template := (← get).template
  modify fun s => { s with template := none }
  discard
  expectEnd "Expected ',' or newline after macro statement"
  match template.map fun t => (t.start, t.finish body) with
  | none => return
  | some (start, found, rs) =>
    addReports rs
    match found with
    | some m => registerMacro start m
    | none => return

/-- The plain kind that the token after a macro's name announces. -/
def kindOfToken? : TokenKind → Option MacroKind
  | .colon => some .constant
  | .leftBrace => some .object
  | .leftBracket => some .list
  | .leftParen => some .operation
  | _ => none

def macroStatement (isFunction : Bool) (start : Nat) : Parser Unit := do
  match ← definitionName .macroName with
  | none => return
  | some name =>
    discard
    match kindOfToken? (← next true .plainWord).kind with
    | none =>
      error "Invalid macro statement; expected '\x7b', '[', '(' or ':'"
      rewind false
      skipStatement .plainWord lineEnd
    | some kind =>
      let kind := if isFunction then kind.asFunction else kind
      match ← params (Template.begin start name kind) with
      | some t => macroBody t
      | none => return

/-! ## Operators -/

def operatorStatement (keyword : Bool) (start : Nat) : Parser Unit := do
  match ← definitionName .word with
  | none => return
  | some name =>
    if (← next true .plainWord).statementWord ≠ "as" then
      error "Expected 'as'"
      skipStatement .unexpected statementEnd
    else
      let cs ← loop clauseTurn {}
      match cs.after with
      | none => return
      | some after =>
        let (goesOn, substitute) ← readAlias after
        if goesOn then
          if !cs.invalid then registerClauses name keyword substitute start cs.valid
          expectEnd "Expected ',' or newline after operator statement"

/-! ## Withdrawals -/

/-- Makes a macro signature unknown. -/
def forgetMacro (s : Signature) : Parser Unit :=
  modify fun p => { p with
    exported := { p.exported with macros := p.exported.macros.remove s }
    visible := { p.visible with macros := p.visible.macros.remove s } }

/-- Makes an operator spelling unknown. -/
def forgetOperator (name : String) (keyword : Bool) : Parser Unit :=
  modify fun p => { p with
    exported := { p.exported with operators := p.exported.operators.remove name keyword }
    visible := { p.visible with operators := p.visible.operators.remove name keyword } }

/-- Skips to the end of the line, with words read as such. -/
def skipLine : Parser Unit :=
  loop (fun _ => do
    let kind := (← next false .word).kind
    if kind = .lineBreak ∨ kind = .endOfFile then return .done () else return .again ()) ()

/-- Reads the brackets that tell the kind of the macro to forget. -/
def forgottenKind? : Parser (Option MacroKind) := do
  discard
  match (← next false .plainWord).kind with
  | .lineBreak =>
    rewind false
    return some .constant
  | .endOfFile =>
    rewind false
    return some .constant
  | .comma =>
    rewind false
    return some .constant
  | .leftBrace =>
    expect .rightBrace
    return some .object
  | .leftBracket =>
    expect .rightBracket
    return some .list
  | .leftParen =>
    expect .rightParen
    return some .operation
  | _ =>
    error "Expected '\x7b', '[', '(' or end of statement"
    skipLine
    return none

def undefMacro (isFunction : Bool) : Parser Unit := do
  match ← definitionName .macroName with
  | none => return
  | some name =>
    match ← forgottenKind? with
    | none => return
    | some kind => forgetMacro ⟨name, if isFunction then kind.asFunction else kind⟩

def undefOperator (keyword : Bool) : Parser Unit := do
  match ← definitionName .word with
  | none => return
  | some name => forgetOperator name keyword

def expectUndefEnd : Parser Unit := expectEnd "Expected ',' or newline after undef statement"

def finishUndef (p : Parser Unit) : Parser Statement := do
  p
  expectUndefEnd
  return .complete

def undefStatement (start : Nat) : Parser Statement := do
  match (← next true .plainWord).statementWord with
  | "macro" => finishUndef (undefMacro false)
  | "fn" => finishUndef (undefMacro true)
  | "operator" => finishUndef (undefOperator false)
  | "keyword" => finishUndef (undefOperator true)
  | "use" =>
    let token ← next false .value
    if token.isLiteral then return .importing token.text start .forget
    else
      finishUndef do
        error "Expected path"
        skipStatement .unexpected statementEnd
  | _ =>
    error "Expected 'macro', 'operator' or 'keyword'"
    skipStatement .unexpected statementEnd
    return .complete

/-! ## Imports -/

def useStatement (start : Nat) : Parser Statement := do
  discard
  let isPublic := (← next false .plainWord).statementWord == "public"
  if !isPublic then rewind true
  let token ← next false .value
  if token.isLiteral then return .importing token.text start (.use isPublic)
  else
    error "Expected path"
    skipLine
    return .complete

end ConfigScript.Parser

namespace ConfigScript.Definition

def copyMacros (d : Definition) : List Macro → Definition × List Report
  | [] => (d, [])
  | m :: ms =>
    let (d, rs) := d.addMacro m
    let (d, ss) := copyMacros d ms
    (d, rs ++ ss)

/-- Adds the operators of another definition, except those that something stands against. -/
def copyOperators (d : Definition) : List Operator → Definition × List Report
  | [] => (d, [])
  | o :: os =>
    let (operators, result) := d.operators.add o
    let rs :=
      if result.isAccepted then []
      else
        [Report.warning
          s!"Cannot import operator definition '{o.text}':\n  {result.message o}"]
    let (d, ss) := copyOperators { d with operators } os
    (d, rs ++ ss)

def copy (d source : Definition) : Definition × List Report :=
  let (d, rs) := d.copyMacros source.macros.macros
  let (d, ss) := d.copyOperators source.operators.operators
  (d, rs ++ ss)

end ConfigScript.Definition

namespace ConfigScript.Parser

/-- Ends a statement that imports, with the definition that was found. -/
def finishImport (start : Nat) (found : Option Definition) : Purpose → Parser Unit
  | .use isPublic => do
    match found with
    | none => return
    | some d =>
      let s ← get
      let (visible, rs) := s.visible.copy d
      modify fun s => { s with visible }
      addReports (rs.map (Report.orAt (some start)))
      if isPublic then modify fun s => { s with exported := (s.exported.copy d).1 }
      expectEnd "Expected ',' or newline after use statement"
  | .forget => do
    match found with
    | none => pure ()
    | some d =>
      d.macros.signatures.forM forgetMacro
      d.operators.spellings.forM fun (name, keyword) => forgetOperator name keyword
    expectUndefEnd

def statement : Parser Statement := do
  discard
  let token ← next true .plainWord
  if token.kind = .endOfFile then return .endOfFile
  match token.statementWord with
  | "macro" => macroStatement false token.start
  | "fn" => macroStatement true token.start
  | "operator" => operatorStatement false token.start
  | "keyword" => operatorStatement true token.start
  | "undef" => return ← undefStatement token.start
  | "use" => return ← useStatement token.start
  | _ => valueStatement token
  return .complete

end ConfigScript.Parser
