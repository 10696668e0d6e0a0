import ConfigScript.Text.Blank
import ConfigScript.Number.Basic

/-! # Reading numbers

The grammar of decimal literals and their correct rounding to a binary64 number, in exact
arithmetic on natural numbers; and the readers of whole numbers of bounded size. -/

namespace ConfigScript.Number

/-- `num / den` rounded to the nearest natural number, a half to the even neighbour. -/
def roundDiv (num den : Nat) : Nat :=
  let q := num / den
  let r := num % den
  if 2 * r < den then q
  else if den < 2 * r then q + 1
  else if q % 2 = 0 then q else q + 1

/-- Magnitude of the number nearest to `num / den`, for positive `den`. The exponent is the least
one that keeps the significand within 53 bits; a significand rounded up to `2 ^ 53` carries into
the exponent field by itself. -/
def magnitudeOfRatio (num den : Nat) : Nat :=
  if num = 0 then 0
  else
    -- `num / den` lies between `2 ^ (a - 1)` and `2 ^ (a + 1)`
    let a : Int := (Nat.log2 num : Int) - Nat.log2 den
    let guess := (a - 52 + 1074).toNat
    let scaled (e : Nat) : Nat × Nat :=
      if 1074 ≤ e then (num, den * twoPow (e - 1074)) else (num * twoPow (1074 - e), den)
    let fits (e : Nat) : Bool := (scaled e).1 < (scaled e).2 * twoPow 53
    let e := if fits (guess - 1) then guess - 1 else guess
    let m := roundDiv (scaled e).1 (scaled e).2
    min (e * twoPow 52 + m) infinityMagnitude

/-- The number nearest to `digits * 10 ^ exponent`, with the given sign. Exponents beyond the range
of finite numbers are settled without building the power. -/
def ofDecimal (negative : Bool) (digits : Nat) (exponent : Int) : Number :=
  if digits = 0 then ofMagnitude negative 0
  else
    let size : Int := (Nat.toDigits 10 digits).length + exponent
    if 400 < size then infinity negative
    else if size < -400 then ofMagnitude negative 0
    else if 0 ≤ exponent then
      ofMagnitude negative (magnitudeOfRatio (digits * tenPow exponent.toNat) 1)
    else ofMagnitude negative (magnitudeOfRatio digits (tenPow (-exponent).toNat))

def ofInt (n : Int) : Number := ofDecimal (n < 0) n.natAbs 0

def digitsValue (cs : List Char) : Nat :=
  cs.foldl (fun n c => n * 10 + (c.toNat - '0'.toNat)) 0

def takeSign : List Char → Bool × List Char
  | '-' :: cs => (true, cs)
  | '+' :: cs => (false, cs)
  | cs => (false, cs)

def takeDigits (cs : List Char) : List Char × List Char :=
  (cs.takeWhile Char.isDigit, cs.dropWhile Char.isDigit)

/-- The exponent part of a literal: nothing at all, or a mark, an optional sign and digits. -/
def readExponent? : List Char → Option Int
  | [] => some 0
  | c :: cs =>
    if c = 'e' ∨ c = 'E' then
      let (negative, cs) := takeSign cs
      let (digits, rest) := takeDigits cs
      if digits.isEmpty || !rest.isEmpty then none
      else some (if negative then -(digitsValue digits : Int) else digitsValue digits)
    else none

/-- An unsigned decimal literal: digits with an optional point, at least one digit, and an optional
exponent. -/
def readDecimal? (negative : Bool) (cs : List Char) : Option Number :=
  let (whole, rest) := takeDigits cs
  let (fraction, rest) :=
    match rest with
    | '.' :: rest => takeDigits rest
    | rest => ([], rest)
  if whole.isEmpty && fraction.isEmpty then none
  else
    (readExponent? rest).map fun e =>
      ofDecimal negative (digitsValue (whole ++ fraction)) (e - fraction.length)

/-- Reads a number: an optional sign, then a decimal literal or one of the words `inf`, `infinity`
and `nan` in any case. -/
def read? (cs : List Char) : Option Number :=
  let (negative, rest) := takeSign cs
  let word := String.ofList (rest.map Char.toLower)
  if word = "inf" ∨ word = "infinity" then some (infinity negative)
  else if word = "nan" then some (if negative then neg notANumber else notANumber)
  else readDecimal? negative rest

def readTrimmed? (s : String) : Option Number := read? (Text.trimBlank s.toList)

def readInt? (cs : List Char) : Option Int :=
  let (negative, digits) := takeSign cs
  if digits.isEmpty || !digits.all Char.isDigit then none
  else some (if negative then -(digitsValue digits : Int) else digitsValue digits)

def readInt64? (s : String) : Option Int :=
  (readInt? s.toList).filter fun n =>
    -(twoPow 63 : Int) ≤ n && n < twoPow 63

/-- Reads an unsigned whole number of 64 bits; a plus sign is allowed, a minus sign is not. -/
def readIndex? (s : String) : Option Nat :=
  if s.toList.head? = some '-' then none
  else ((readInt? s.toList).map Int.toNat).filter fun n => n < twoPow 64

end ConfigScript.Number
