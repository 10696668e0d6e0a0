import ConfigScript.Number.Reading
import ConfigScript.Text.Hex

/-! # Reading JSON

The strict grammar: one value between blanks, no trailing commas, no control characters in strings.
Escapes can leave a string with a surrogate that has no partner. Such a string has no text, but the
document is not refused for it. -/

namespace ConfigScript

/-- A JSON value. A number is kept as it is written; members stand in order, repeated keys
included. -/
inductive Json
  | null
  | bool (b : Bool)
  | number (literal : List Char)
  | string (text : Option String)
  | array (items : List Json)
  | object (members : List (Option String × Json))
  deriving Inhabited

namespace Json

def bool? : Json → Option Bool
  | bool b => some b
  | _ => none

def isBlank (c : Char) : Bool := c = ' ' || c = '\n' || c = '\t' || c = '\r'

def skipBlanks (cs : List Char) : List Char := cs.dropWhile isBlank

/-! ## Strings -/

def unit? (a b c d : Char) : Option Nat := Text.hexValue? 4 0 [a, b, c, d]

/-- The character that a one-letter escape stands for. -/
def escaped? : Char → Option Nat
  | '"' => some '"'.toNat
  | '\\' => some '\\'.toNat
  | '/' => some '/'.toNat
  | 'b' => some 8
  | 'f' => some 12
  | 'n' => some '\n'.toNat
  | 'r' => some '\r'.toNat
  | 't' => some '\t'.toNat
  | _ => none

/-- Reads up to the closing quote: code points, and code units where they are escaped. -/
def readUnits? : List Char → Option (List Nat × List Char)
  | [] => none
  | '"' :: cs => some ([], cs)
  | '\\' :: 'u' :: a :: b :: c :: d :: cs => do
    let u ← unit? a b c d
    let (us, rest) ← readUnits? cs
    return (u :: us, rest)
  | '\\' :: e :: cs => do
    let u ← escaped? e
    let (us, rest) ← readUnits? cs
    return (u :: us, rest)
  | c :: cs => do
    if c.toNat < 32 || c = '\\' then none
    let (us, rest) ← readUnits? cs
    return (c.toNat :: us, rest)

def isHighSurrogate (u : Nat) : Bool := 0xD800 ≤ u && u < 0xDC00

def isLowSurrogate (u : Nat) : Bool := 0xDC00 ≤ u && u < 0xE000

/-- Joins surrogates to characters; a surrogate without its partner is refused. -/
def joinUnits? : List Nat → Option (List Char)
  | [] => some []
  | [u] => if u.isValidChar then some [Char.ofNat u] else none
  | u :: v :: us =>
    if isHighSurrogate u then
      if isLowSurrogate v then do
        let cs ← joinUnits? us
        return Char.ofNat (0x10000 + (u - 0xD800) * 0x400 + (v - 0xDC00)) :: cs
      else none
    else if u.isValidChar then do
      let cs ← joinUnits? (v :: us)
      return Char.ofNat u :: cs
    else none

def readString? (cs : List Char) : Option (Option String × List Char) := do
  let (us, rest) ← readUnits? cs
  return ((joinUnits? us).map String.ofList, rest)

/-! ## Numbers -/

def readDigits? (cs : List Char) : Option (List Char × List Char) :=
  let (digits, rest) := Number.takeDigits cs
  if digits.isEmpty then none else some (digits, rest)

/-- Reads the digits before the point, without needless zeros in front. -/
def readWhole? : List Char → Option (List Char × List Char)
  | '0' :: cs => if (cs.head?.map Char.isDigit).getD false then none else some (['0'], cs)
  | cs => readDigits? cs

/-- Reads the point and the digits after it, if there is a point. -/
def readFraction? : List Char → Option (List Char × List Char)
  | '.' :: cs => do
    let (digits, rest) ← readDigits? cs
    return ('.' :: digits, rest)
  | cs => some ([], cs)

/-- Reads the sign of an exponent, if there is one. -/
def readSign : List Char → List Char × List Char
  | '+' :: cs => (['+'], cs)
  | '-' :: cs => (['-'], cs)
  | cs => ([], cs)

/-- Reads the exponent, if there is one. -/
def readExponent? : List Char → Option (List Char × List Char)
  | c :: cs =>
    if c = 'e' ∨ c = 'E' then do
      let (sign, rest) := readSign cs
      let (digits, rest) ← readDigits? rest
      return (c :: sign ++ digits, rest)
    else some ([], c :: cs)
  | [] => some ([], [])

def readNumber? (cs : List Char) : Option (Json × List Char) := do
  let (sign, rest) :=
    match cs with
    | '-' :: cs => (['-'], cs)
    | cs => ([], cs)
  let (whole, rest) ← readWhole? rest
  let (fraction, rest) ← readFraction? rest
  let (exponent, rest) ← readExponent? rest
  return (number (sign ++ whole ++ fraction ++ exponent), rest)

/-! ## Values -/

mutual

def readValue? : Nat → List Char → Option (Json × List Char)
  | 0, _ => none
  | n + 1, cs =>
    match cs with
    | 'n' :: 'u' :: 'l' :: 'l' :: cs => some (null, cs)
    | 't' :: 'r' :: 'u' :: 'e' :: cs => some (bool true, cs)
    | 'f' :: 'a' :: 'l' :: 's' :: 'e' :: cs => some (bool false, cs)
    | '"' :: cs => (readString? cs).map fun (s, rest) => (string s, rest)
    | '[' :: cs =>
      match skipBlanks cs with
      | ']' :: cs => some (array [], cs)
      | cs => (readItems? n cs).map fun (xs, rest) => (array xs, rest)
    | '\x7b' :: cs =>
      match skipBlanks cs with
      | '\x7d' :: cs => some (object [], cs)
      | cs => (readMembers? n cs).map fun (ms, rest) => (object ms, rest)
    | cs => readNumber? cs

def readItems? : Nat → List Char → Option (List Json × List Char)
  | 0, _ => none
  | n + 1, cs => do
    let (x, rest) ← readValue? n cs
    match skipBlanks rest with
    | ']' :: rest => some ([x], rest)
    | ',' :: rest =>
      let (xs, rest) ← readItems? n (skipBlanks rest)
      return (x :: xs, rest)
    | _ => none

def readMembers? : Nat → List Char → Option (List (Option String × Json) × List Char)
  | 0, _ => none
  | n + 1, '"' :: cs => do
    let (key, rest) ← readString? cs
    match skipBlanks rest with
    | ':' :: rest =>
      let (x, rest) ← readValue? n (skipBlanks rest)
      match skipBlanks rest with
      | '\x7d' :: rest => some ([(key, x)], rest)
      | ',' :: rest =>
        let (ms, rest) ← readMembers? n (skipBlanks rest)
        return ((key, x) :: ms, rest)
      | _ => none
    | _ => none
  | _ + 1, _ => none

end

/-- Reads a document. Of two nested calls at least one takes a character, which bounds the
nesting. -/
def read? (text : String) : Option Json := do
  let cs := text.toList
  let (j, rest) ← readValue? (2 * cs.length + 2) (skipBlanks cs)
  if (skipBlanks rest).isEmpty then some j else none

end Json

end ConfigScript
