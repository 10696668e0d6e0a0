import ConfigScript.Library.Eval

/-! # Text formatting

A pattern holds placeholders between braces: an empty one takes the next argument, a number the
argument at that index, any other text the property of that key. Doubled braces stand for
themselves, and a placeholder that nothing fills is left as it is. -/

namespace ConfigScript.Library

inductive FormatArgs
  | single (text : String)
  | list (items : List Node)
  | object (properties : List (String × Node))

namespace FormatArgs

def ofNode : Node → FormatArgs
  | .primitive s _ => .single s
  | .list _ _ items _ => .list items
  | .object _ props _ => .object props

/-- A primitive stands for its text without quotes. -/
def plainText : Node → String
  | .primitive s _ => s
  | n => n.text

def atIndex? (i : Nat) : FormatArgs → Option String
  | .single s => if i = 0 then some s else none
  | .list items => items[i]?.map plainText
  | .object props => props[i]?.map fun p => plainText p.2

def atKey? (key : String) : FormatArgs → Option String
  | .object props => (Properties.get? key props).map plainText
  | _ => none

end FormatArgs

/-- What fills a placeholder, where `next` counts the empty ones before it. -/
def placeholderText? (args : FormatArgs) (next : Nat) (placeholder : String) : Option String :=
  if placeholder.isEmpty then args.atIndex? next
  else
    match Number.readIndex? placeholder with
    | some i => args.atIndex? i
    | none => args.atKey? placeholder

/-- Fills a pattern. Inside a placeholder its text so far is kept in reverse. -/
def fill (args : FormatArgs) : Option (List Char) → Nat → List Char → List Char
  | none, _, [] => []
  | some seen, _, [] => '{' :: seen.reverse
  | some seen, next, '}' :: cs =>
    let placeholder := String.ofList seen.reverse
    let filled :=
      match placeholderText? args next placeholder with
      | some s => s.toList
      | none => '{' :: seen.reverse ++ ['}']
    filled ++ fill args none (if seen.isEmpty then next + 1 else next) cs
  | some seen, next, c :: cs => fill args (some (c :: seen)) next cs
  | none, next, '{' :: '{' :: cs => '{' :: fill args none next cs
  | none, next, '}' :: '}' :: cs => '}' :: fill args none next cs
  | none, next, '{' :: cs => fill args (some []) next cs
  | none, next, c :: cs => c :: fill args none next cs

def format (pattern : String) (args : FormatArgs) : String :=
  String.ofList (fill args none 0 pattern.toList)

def formatBody : List Node → Bool → Expansion
  | pattern :: argument :: _, _ =>
    match pattern.expectPrimitive with
    | .ok s => .produced (Node.value (format s (FormatArgs.ofNode argument)))
    | .error f => .fault f
  | _, _ => tooFewArguments

def formatSign : Operator :=
  ⟨"%", false, .binary, some "format", .plain, Number.ofDecimal false 5 (-1)⟩

def formatUnit : Definition :=
  Definition.addMacros { operators := tableOf [formatSign] }
    [libraryMacro "format" .operation
      [⟨"format", none⟩, ⟨"argument", some (.list "" false [] {})⟩]
      (some [.primitive, .any]) formatBody]

end ConfigScript.Library
