/-! # Script text

A source is the list of its lines. Every position is an index into its code points, where lines
are separated by a single line break whatever the text used; positions, lines, columns and byte
offsets are computed from the lines alone. -/

namespace ConfigScript

structure Source where
  lines : List String
  deriving DecidableEq, Repr

namespace Source

/-- Splits at line feeds, carriage returns, and pairs of both. The line being read is kept in
reverse. -/
def splitLines : List Char → List Char → List (List Char)
  | [], line => [line.reverse]
  | '\r' :: '\n' :: cs, line => line.reverse :: splitLines cs []
  | '\r' :: cs, line => line.reverse :: splitLines cs []
  | '\n' :: cs, line => line.reverse :: splitLines cs []
  | c :: cs, line => splitLines cs (c :: line)

def ofText (text : String) : Source :=
  ⟨(splitLines text.toList []).map String.ofList⟩

def ofBytes? (bytes : ByteArray) : Option Source :=
  (String.fromUTF8? bytes).map ofText

/-- All code points, lines joined by a line feed. -/
def chars (s : Source) : List Char :=
  List.intercalate ['\n'] (s.lines.map String.toList)

def text (s : Source) : String := String.ofList s.chars

def length (s : Source) : Nat := s.chars.length

/-- Start positions of the given lines, the first of which starts at `p`. -/
def startsFrom (p : Nat) : List String → List Nat
  | [] => []
  | l :: ls => p :: startsFrom (p + l.toList.length + 1) ls

/-- The position at which each line starts; a source without lines has one empty line. -/
def starts (s : Source) : List Nat :=
  if s.lines.isEmpty then [0] else startsFrom 0 s.lines

def lineCount (s : Source) : Nat := s.starts.length

/-- The code point at a position, if the position is inside the text. -/
def char? (s : Source) (p : Nat) : Option Char := s.chars[p]?

def charsFrom (s : Source) (p : Nat) : List Char := s.chars.drop p

/-- Zero-based index of the line that holds a position; the last line for any position beyond. -/
def lineAt (s : Source) (p : Nat) : Nat := s.starts.countP (· ≤ p) - 1

def lineStart? (s : Source) (line : Nat) : Option Nat := s.starts[line]?

/-- Position of the line break that ends a line, or of the end of the text. -/
def lineEnd? (s : Source) (line : Nat) : Option Nat :=
  if line + 1 = s.lineCount then some s.length
  else s.starts[line + 1]?.map (· - 1)

def lineSpan? (s : Source) (line : Nat) : Option (Nat × Nat × Nat) := do
  let first ← s.lineStart? line
  let last ← s.lineEnd? line
  return (first, last, last - first)

/-- One-based line and column. -/
structure LineColumn where
  line : Nat
  column : Nat
  deriving DecidableEq, Repr

def LineColumn.text (lc : LineColumn) : String := s!"{lc.line}:{lc.column}"

def lineColumn (s : Source) (p : Nat) : LineColumn :=
  let line := s.lineAt p
  ⟨line + 1, p - (s.lineStart? line).getD 0 + 1⟩

/-- Widest window of a line that a snippet shows, and how far before the position it may start. -/
def snippetWidth : Nat := 50

def snippetLead : Nat := 30

/-- The line around a position with the position marked: before its character if the window
reaches that, else at the end. Line breaks inside the window are left out. -/
def snippet (s : Source) (p : Nat) : String :=
  let (first, size) :=
    match s.lineSpan? (s.lineAt p) with
    | some (first, _, size) =>
      if snippetWidth < size then (max first (p - snippetLead), snippetWidth) else (first, size)
    | none => (0, 0)
  let window := (s.charsFrom first).take size
  let shown (cs : List Char) : String := String.ofList (cs.filter fun c => c != '\r' && c != '\n')
  if first + window.length ≤ p then shown window ++ "  // <<< HERE"
  else
    shown (window.take (p - first)) ++ "/* HERE >>> */" ++ shown (window.drop (p - first))

/-- UTF-8 length of the first `p` code points. -/
def byteOffset (s : Source) (p : Nat) : Nat :=
  (s.chars.take p).foldl (fun n c => n + c.utf8Size) 0

/-- UTF-8 length of the code point at a position, zero beyond the end. -/
def byteLength (s : Source) (p : Nat) : Nat :=
  match s.char? p with
  | some c => c.utf8Size
  | none => 0

end Source

end ConfigScript
