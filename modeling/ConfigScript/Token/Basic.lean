import ConfigScript.Number.Reading

/-! # Tokens

The lexical units of a script, and the modes in which the next one can be read. The language has
no grammar of tokens that holds everywhere: what a character means depends on what is expected. -/

namespace ConfigScript

inductive TokenKind
  | endOfFile
  | lineBreak
  | leftParen
  | rightParen
  | leftBrace
  | rightBrace
  | leftBracket
  | rightBracket
  | equals
  | comma
  | colon
  | word
  | plainWord
  | key
  | paramName
  | macroName
  | quoted
  | value
  | operator
  | keyword
  | number
  | unexpected
  deriving DecidableEq, Repr

namespace TokenKind

def label : TokenKind → String
  | endOfFile => "end of file"
  | lineBreak => "line break"
  | leftParen => "'('"
  | rightParen => "')'"
  | leftBrace => "'\x7b'"
  | rightBrace => "'\x7d'"
  | leftBracket => "'['"
  | rightBracket => "']'"
  | equals => "'='"
  | comma => "','"
  | colon => "':'"
  | word => "word"
  | plainWord => "plain word"
  | key => "key"
  | paramName => "parameter name"
  | macroName => "macro name"
  | quoted => "quoted primitive"
  | value => "value"
  | operator => "operator"
  | keyword => "keyword"
  | number => "number"
  | unexpected => "error"

def tag : TokenKind → String
  | endOfFile => "Eof"
  | lineBreak => "Br"
  | leftParen => "LParen"
  | rightParen => "RParen"
  | leftBrace => "LBrace"
  | rightBrace => "RBrace"
  | leftBracket => "LBracket"
  | rightBracket => "RBracket"
  | equals => "Eq"
  | comma => "Comma"
  | colon => "Colon"
  | word => "Word"
  | plainWord => "PlainWord"
  | key => "Key"
  | paramName => "ParamName"
  | macroName => "MacroName"
  | quoted => "QuotedPrimitive"
  | value => "Value"
  | operator => "Operator"
  | keyword => "Keyword"
  | number => "Number"
  | unexpected => "Error"

end TokenKind

/-- A token with the position of its first character. Tokens that are not a single sign carry the
text they were decoded to. -/
structure Token where
  kind : TokenKind
  start : Nat
  literal : Option String
  deriving DecidableEq, Repr

namespace Token

def sign (kind : TokenKind) (start : Nat) : Token := ⟨kind, start, none⟩

def ofLiteral (kind : TokenKind) (start : Nat) (text : List Char) : Token :=
  ⟨kind, start, some (String.ofList text)⟩

def is (kind : TokenKind) (t : Token) : Bool := t.kind == kind

def isLiteral (t : Token) : Bool := t.literal.isSome

def text (t : Token) : String := t.literal.getD ""

/-- The literal of a plain word, the only form in which a statement word is recognised. -/
def statementWord (t : Token) : String := if t.kind = .plainWord then t.text else ""

/-- A literal that can name a macro or a parameter; a quoted one never does. -/
def isSimpleLiteral (t : Token) : Bool := t.isLiteral && t.kind != .quoted

def number? (t : Token) : Option Number :=
  if t.kind = .value then (Number.readTrimmed? t.text).filter fun x => !x.isNaN else none

def isOperatorOrKeyword (t : Token) : Bool := t.kind == .operator || t.kind == .keyword

def shown (t : Token) : String :=
  s!"{t.kind.tag}:{t.start}"
    ++ match t.literal with
      | some text => "(" ++ text ++ ")"
      | none => ""

end Token

/-- How to read the next token. -/
inductive ReadMode
  /-- One word; it is plain if written without escapes. -/
  | plainWord
  /-- One word, up to a colon. -/
  | word
  /-- A property key: it may hold blanks and brackets, and ends at a colon. -/
  | key
  /-- A parameter name, up to an equals sign. -/
  | paramName
  /-- A macro name, up to a colon. -/
  | macroName
  /-- A value: it may hold blanks and colons. -/
  | value
  /-- A term of an operation: words end where an operator starts. -/
  | operation
  /-- Structure alone: anything else is an unexpected token. -/
  | unexpected
  deriving DecidableEq, Repr

/-- What becomes of an escape that does not denote a character. -/
inductive UnicodePolicy
  | error
  | warn
  | ignore
  deriving DecidableEq, Repr, Inhabited

end ConfigScript
