import ConfigScript.Parser.State

/-! # Recovery

After an error the parser skips tokens up to a place where it can go on. Collections on the way
are read and thrown away, so that their brackets stay balanced. -/

namespace ConfigScript.Parser

/-- Where to stop skipping, beside the end of the script. -/
structure StopAt where
  closer : Option TokenKind := none
  comma : Bool := true
  lineBreak : Bool := true
  deriving DecidableEq, Repr

def statementEnd : StopAt := {}

/-- Stops at the separator of an entry or at the end of its collection. -/
def entryEnd (closer : TokenKind) : StopAt := { closer := some closer }

def closerOnly (closer : TokenKind) : StopAt :=
  { closer := some closer, comma := false, lineBreak := false }

def lineEnd : StopAt := { comma := false }

def isOpening (kind : TokenKind) : Bool :=
  kind == .leftBrace || kind == .leftBracket || kind == .leftParen

theorem isOpening_ne_lineBreak {kind : TokenKind} (h : isOpening kind = true) :
    kind ≠ .lineBreak := by
  rintro rfl
  exact absurd h (by decide)

/-- Skips one token or collection; the value tells whether the closer has been found. -/
def skipTurn (collection : Parser (Option Node)) (mode : ReadMode) (stop : StopAt) (_ : Bool) :
    Parser (Turn Bool) := do
  discard
  let kind := (← next false mode).kind
  if kind = .lineBreak then return if stop.lineBreak then .done false else .again false
  else if kind = .endOfFile then return .done false
  else if kind = .comma then return if stop.comma then .done false else .again false
  else if isOpening kind then
    rewind false
    let _ ← outsideTemplate collection
    return .again false
  else if stop.closer = some kind then return .done true
  else return .again false

/-- Skips in a mode without reporting, up to where `stop` says. Tells whether the closer was
found. -/
def skipTo (collection : Parser (Option Node)) (mode : ReadMode) (stop : StopAt) :
    Parser Bool := do
  let before := (← get).recovering
  modify fun s => { s with recovering := true }
  let found ← loop (skipTurn collection mode stop) false
  modify fun s => { s with recovering := before }
  return found

end ConfigScript.Parser
