import ConfigScript.Operator.Table
import ConfigScript.Report
import ConfigScript.Text.Hex
import ConfigScript.Token.Basic

/-! # Reading one token

The readers of blanks, comments, escapes, words, numbers and quoted texts. Each goes from one
place of the text to a later one, and hands back the reports it has cause for. -/

namespace ConfigScript

/-- A place in the text: a position and the characters from there on. -/
structure Cursor where
  pos : Nat
  rest : List Char
  deriving DecidableEq, Repr, Inhabited

namespace Cursor

def start (cs : List Char) : Cursor := ⟨0, cs⟩

def advance (c : Cursor) (n : Nat) : Cursor := ⟨c.pos + n, c.rest.drop n⟩

end Cursor

namespace Scan

/-- Blanks between tokens; a line break is a token. -/
def isSpacing (c : Char) : Bool := c == ' ' || c == '\t'

/-- Characters that end a number, beside comments and operators. -/
def isClosing (c : Char) : Bool :=
  isSpacing c || ['\n', '{', '}', ',', '(', ')', '[', ']', ':'].contains c

/-- What follows the end of a block comment, if it has one. -/
def afterBlock? : List Char → Option (List Char)
  | [] => none
  | '*' :: '/' :: cs => some cs
  | _ :: cs => afterBlock? cs

theorem afterBlock?_length_le {cs rest : List Char} (h : afterBlock? cs = some rest) :
    rest.length ≤ cs.length := by
  fun_induction afterBlock? cs with
  | case1 => simp at h
  | case2 cs => simp only [Option.some.injEq] at h; subst h; simp; omega
  | case3 c cs _ ih => have := ih h; simp; omega

/-- What follows a comment that starts here, and whether the comment was closed. A line comment
leaves its line break in place. -/
def afterComment? : List Char → Option (List Char × Bool)
  | '/' :: '/' :: cs => some (cs.dropWhile (· != '\n'), true)
  | '/' :: '*' :: cs =>
    match afterBlock? cs with
    | some rest => some (rest, true)
    | none => some ([], false)
  | _ => none

theorem length_dropWhile_le {α : Type} (p : α → Bool) (xs : List α) :
    (xs.dropWhile p).length ≤ xs.length := by
  induction xs with
  | nil => simp
  | cons x xs ih =>
    rw [List.dropWhile_cons]
    split
    · rw [List.length_cons]; omega
    · exact Nat.le_refl _

theorem afterComment?_length_lt {cs rest : List Char} {closed : Bool}
    (h : afterComment? cs = some (rest, closed)) : rest.length < cs.length := by
  unfold afterComment? at h
  split at h
  · rename_i cs
    simp only [Option.some.injEq, Prod.mk.injEq] at h
    have := length_dropWhile_le (· != '\n') cs
    rw [← h.1]
    simp
    omega
  · split at h
    · rename_i cs _ rest' hr
      simp only [Option.some.injEq, Prod.mk.injEq] at h
      have := afterBlock?_length_le hr
      rw [← h.1]
      simp
      omega
    · simp only [Option.some.injEq, Prod.mk.injEq] at h
      rw [← h.1]
      simp
  · simp at h

def commentReports (start : Nat) (closed : Bool) : List Report :=
  if closed then [] else [Report.errorAt "Unterminated block comment" (some start)]

/-- Skips blanks, joined lines and comments, from a position on. -/
def skipBlank (pos : Nat) (cs : List Char) : Cursor × List Report :=
  match cs with
  | [] => (⟨pos, []⟩, [])
  | c :: rest =>
    if isSpacing c then skipBlank (pos + 1) rest
    else if c == '\\' && rest.head? == some '\n' then skipBlank (pos + 2) (rest.drop 1)
    else
      match hk : afterComment? (c :: rest) with
      | some (after, closed) =>
        have := afterComment?_length_lt hk
        let r := skipBlank (pos + ((c :: rest).length - after.length)) after
        (r.1, commentReports pos closed ++ r.2)
      | none => (⟨pos, c :: rest⟩, [])
  termination_by cs.length
  decreasing_by
    · simp only [List.length_cons]; omega
    · simp only [List.length_cons, List.length_drop]; omega
    · assumption

/-- The character that `n` hexadecimal digits denote; surrogates and numbers beyond the last code
point denote none. -/
def hexChar? (n : Nat) (cs : List Char) : Option Char :=
  (Text.hexValue? n 0 cs).bind fun v => if v.isValidChar then some (Char.ofNat v) else none

/-- The report about an invalid escape, if there is to be one. -/
def escapeReports (policy : UnicodePolicy) (letter : Char) (backslash : Nat) : List Report :=
  let message := "Invalid unicode escape '\\" ++ String.ofList [letter] ++ "'"
  match policy with
  | .error => [Report.errorAt message (some backslash)]
  | .warn => [Report.warningAt message (some backslash)]
  | .ignore => []

/-- A decoded escape: its text, how many characters after the backslash it takes, and reports. -/
structure Escape where
  text : List Char
  used : Nat
  reports : List Report

/-- A code point given by `n` hexadecimal digits. After an invalid escape the digits are read as
ordinary characters. -/
def unicodeEscape (policy : UnicodePolicy) (letter : Char) (n backslash : Nat) (cs : List Char) :
    Escape :=
  match hexChar? n cs with
  | some d => ⟨[d], 1 + n, []⟩
  | none => ⟨[letter], 1, escapeReports policy letter backslash⟩

def escape (policy : UnicodePolicy) (backslash : Nat) : List Char → Escape
  | [] => ⟨['\\'], 0, []⟩
  | 'n' :: _ => ⟨['\n'], 1, []⟩
  | 't' :: _ => ⟨['\t'], 1, []⟩
  | 'r' :: _ => ⟨['\r'], 1, []⟩
  | 'u' :: cs => unicodeEscape policy 'u' 4 backslash cs
  | 'U' :: cs => unicodeEscape policy 'U' 8 backslash cs
  | c :: _ => ⟨[c], 1, []⟩

/-- Where a word ends, beside line breaks, braces and commas. -/
structure WordRules where
  stopAtBlank : Bool
  stopAtColon : Bool
  stopAtEquals : Bool
  stopAtBracket : Bool
  deriving DecidableEq, Repr

namespace WordRules

def stopsAt (r : WordRules) (c : Char) : Bool :=
  ['\n', '{', '}', ','].contains c
    || (r.stopAtBracket && ['(', ')', '[', ']'].contains c)
    || (r.stopAtColon && c == ':')
    || (r.stopAtEquals && c == '=')

end WordRules

/-- A word: its text, whether it held escapes, where it ended, and reports. -/
structure Word where
  text : List Char
  escaped : Bool
  after : Cursor
  reports : List Report

def startsOperator (operators : Option OperatorTable) (cs : List Char) : Bool :=
  match operators with
  | some t => (t.longestMatch? cs).isSome
  | none => false

/-- Reads a word. Where blanks do not end it, blanks at its end are dropped and comments inside it
count as nothing; `blanks` holds the blanks seen since its last other character. -/
def word (policy : UnicodePolicy) (r : WordRules) (operators : Option OperatorTable)
    (blanks : List Char) (pos : Nat) (cs : List Char) : Word :=
  match cs with
  | [] => ⟨[], false, ⟨pos, []⟩, []⟩
  | c :: rest =>
    if isSpacing c then
      if r.stopAtBlank then ⟨[], false, ⟨pos, c :: rest⟩, []⟩
      else word policy r operators (blanks ++ [c]) (pos + 1) rest
    else if c == '\\' && rest.head? == some '\n' then
      word policy r operators blanks (pos + 2) (rest.drop 1)
    else
      match hk : afterComment? (c :: rest) with
      | some (after, closed) =>
        if r.stopAtBlank then ⟨[], false, ⟨pos, c :: rest⟩, []⟩
        else
          let w := word policy r operators blanks
            (pos + ((c :: rest).length - after.length)) after
          { w with reports := commentReports pos closed ++ w.reports }
      | none =>
        if r.stopsAt c || (c != '\\' && startsOperator operators (c :: rest)) then
          ⟨[], false, ⟨pos, c :: rest⟩, []⟩
        else if c == '\\' then
          let e := escape policy pos rest
          let w := word policy r operators [] (pos + 1 + e.used) (rest.drop e.used)
          ⟨blanks ++ e.text ++ w.text, true, w.after, e.reports ++ w.reports⟩
        else
          let w := word policy r operators [] (pos + 1) rest
          { w with text := blanks ++ c :: w.text }
  termination_by cs.length
  decreasing_by
    · simp only [List.length_cons]; omega
    · simp only [List.length_cons, List.length_drop]; omega
    · exact afterComment?_length_lt hk
    · simp only [List.length_cons, List.length_drop]; omega
    · simp only [List.length_cons]; omega

/-- After a line break inside a quoted text: blanks up to a bar are skipped with the bar. -/
def skipMargin (cs : List Char) : List Char :=
  match cs.dropWhile isSpacing with
  | '|' :: rest => rest
  | _ => cs

theorem skipMargin_length_le (cs : List Char) : (skipMargin cs).length ≤ cs.length := by
  unfold skipMargin
  split
  · rename_i rest h
    have := length_dropWhile_le isSpacing cs
    rw [h] at this
    simp at this
    omega
  · exact Nat.le_refl _

/-- Reads a quoted text up to its closing quote, from a position after the opening one; `start` is
the position of that. -/
def quoted (policy : UnicodePolicy) (quote : Char) (start pos : Nat) (cs : List Char) : Word :=
  match cs with
  | [] => ⟨[], false, ⟨pos, []⟩, [Report.errorAt "Unterminated primitive" (some start)]⟩
  | c :: rest =>
    if c == quote then ⟨[], false, ⟨pos + 1, rest⟩, []⟩
    else if c == '\\' then
      if rest.head? == some '\n' then quoted policy quote start (pos + 2) (rest.drop 1)
      else
        let e := escape policy pos rest
        let w := quoted policy quote start (pos + 1 + e.used) (rest.drop e.used)
        ⟨e.text ++ w.text, true, w.after, e.reports ++ w.reports⟩
    else if c == '\n' then
      let rest' := skipMargin rest
      let w := quoted policy quote start (pos + 1 + (rest.length - rest'.length)) rest'
      { w with text := '\n' :: w.text }
    else
      let w := quoted policy quote start (pos + 1) rest
      { w with text := c :: w.text }
  termination_by cs.length
  decreasing_by
    · simp only [List.length_cons, List.length_drop]; omega
    · simp only [List.length_cons, List.length_drop]; omega
    · have := skipMargin_length_le rest
      simp only [List.length_cons]
      omega
    · simp only [List.length_cons]; omega

/-- The fraction of a number literal, if the rest starts with one. -/
def takeFraction : List Char → List Char × List Char
  | '.' :: cs =>
    match Number.takeDigits cs with
    | ([], _) => ([], '.' :: cs)
    | (digits, rest) => ('.' :: digits, rest)
  | cs => ([], cs)

def takeSignText : List Char → List Char × List Char
  | '+' :: cs => (['+'], cs)
  | '-' :: cs => (['-'], cs)
  | cs => ([], cs)

/-- The exponent of a number literal, if the rest starts with one. -/
def takeExponent (cs : List Char) : List Char × List Char :=
  match cs with
  | e :: rest =>
    if e == 'e' || e == 'E' then
      let (sign, digits) := takeSignText rest
      match Number.takeDigits digits with
      | ([], _) => ([], cs)
      | (digits, rest) => (e :: sign ++ digits, rest)
    else ([], cs)
  | [] => ([], [])

def endsNumber (operators : OperatorTable) (cs : List Char) : Bool :=
  match cs with
  | [] => true
  | c :: _ =>
    isClosing c || (operators.longestMatch? cs).isSome || (afterComment? cs).isSome

/-- A number literal that starts here and ends cleanly. -/
def numberLiteral? (operators : OperatorTable) (cs : List Char) : Option (List Char) :=
  let (whole, rest) := Number.takeDigits cs
  let (fraction, rest) := takeFraction rest
  let (exponent, rest) := takeExponent rest
  if whole.isEmpty || !endsNumber operators rest then none
  else some (whole ++ fraction ++ exponent)

def sign? (mode : ReadMode) (c : Char) : Option TokenKind :=
  match c with
  | '\n' => some .lineBreak
  | '{' => some .leftBrace
  | '}' => some .rightBrace
  | ',' => some .comma
  | '(' => if mode = .key then none else some .leftParen
  | ')' => if mode = .key then none else some .rightParen
  | '[' => if mode = .key then none else some .leftBracket
  | ']' => if mode = .key then none else some .rightBracket
  | ':' => if mode = .value then none else some .colon
  | '=' => if mode = .paramName then some .equals else none
  | _ => none

def rulesOf : ReadMode → WordRules
  | .plainWord => ⟨true, true, false, true⟩
  | .word => ⟨true, true, false, true⟩
  | .macroName => ⟨true, true, false, true⟩
  | .paramName => ⟨true, false, true, true⟩
  | .key => ⟨false, true, false, false⟩
  | .value => ⟨false, false, false, true⟩
  | .operation => ⟨true, true, false, true⟩
  | .unexpected => ⟨true, true, true, true⟩

/-- A token, the place after it, and reports. -/
structure Lexeme where
  token : Token
  after : Cursor
  reports : List Report

/-- A term of an operation: the longest operator that starts here, else a number, else a word. -/
def term (policy : UnicodePolicy) (operators : OperatorTable) (c : Cursor) : Lexeme :=
  match operators.longestMatch? c.rest with
  | some n => ⟨.ofLiteral .operator c.pos (c.rest.take n), c.advance n, []⟩
  | none =>
    match numberLiteral? operators c.rest with
    | some digits => ⟨.ofLiteral .number c.pos digits, c.advance digits.length, []⟩
    | none =>
      let w := word policy (rulesOf .operation) (some operators) [] c.pos c.rest
      let isKeyword := !w.escaped && operators.isKeyword (String.ofList w.text)
      ⟨.ofLiteral (if isKeyword then .keyword else .word) c.pos w.text, w.after, w.reports⟩

def wordKind (escaped : Bool) : ReadMode → TokenKind
  | .plainWord => if escaped then .word else .plainWord
  | .word => .word
  | .macroName => .macroName
  | .paramName => .paramName
  | .key => .key
  | .value => .value
  | .operation => .word
  | .unexpected => .unexpected

/-- Reads a token at a place that holds no blank. -/
def lexeme (policy : UnicodePolicy) (mode : ReadMode) (operators : OperatorTable) (c : Cursor) :
    Lexeme :=
  match c.rest with
  | [] => ⟨.sign .endOfFile c.pos, c, []⟩
  | ch :: _ =>
    match sign? mode ch with
    | some kind => ⟨.sign kind c.pos, c.advance 1, []⟩
    | none =>
      if ch == '"' || ch == '\'' then
        let w := quoted policy ch c.pos (c.pos + 1) (c.rest.drop 1)
        let token :=
          if mode = .unexpected then .sign .unexpected c.pos else .ofLiteral .quoted c.pos w.text
        ⟨token, w.after, w.reports⟩
      else if mode = .operation then term policy operators c
      else
        let w := word policy (rulesOf mode) none [] c.pos c.rest
        if mode = .unexpected then
          ⟨.sign .unexpected c.pos, if w.after.pos = c.pos then c.advance 1 else w.after,
            w.reports⟩
        else ⟨.ofLiteral (wordKind w.escaped mode) c.pos w.text, w.after, w.reports⟩

def next (policy : UnicodePolicy) (mode : ReadMode) (operators : OperatorTable) (c : Cursor) :
    Lexeme :=
  let (c, rs) := skipBlank c.pos c.rest
  let l := lexeme policy mode operators c
  { l with reports := rs ++ l.reports }

end Scan

end ConfigScript
