/-! # Binary64 numbers

A number is the 64-bit pattern of a binary floating-point value: sign, biased exponent, fraction.
Classification, comparison and order are decided on the pattern alone, so they are plain integer
arithmetic; `+`, `-`, `*`, `/` and powers are those of the machine. -/

namespace ConfigScript

structure Number where
  bits : UInt64
  deriving DecidableEq, Repr, Inhabited

namespace Number

def twoPow (n : Nat) : Nat := Nat.pow 2 n

def tenPow (n : Nat) : Nat := Nat.pow 10 n

/-- The pattern without its sign bit. -/
def magnitude (x : Number) : Nat := x.bits.toNat % twoPow 63

def isNegative (x : Number) : Bool := twoPow 63 ≤ x.bits.toNat

/-- The magnitude at which infinity sits; above it are the patterns that are not numbers. -/
def infinityMagnitude : Nat := 2047 * twoPow 52

def isNaN (x : Number) : Bool := infinityMagnitude < x.magnitude

def isInfinite (x : Number) : Bool := x.magnitude == infinityMagnitude

def isZero (x : Number) : Bool := x.magnitude == 0

def ofMagnitude (negative : Bool) (magnitude : Nat) : Number :=
  ⟨UInt64.ofNat (if negative then twoPow 63 + magnitude else magnitude)⟩

def zero : Number := ofMagnitude false 0

def infinity (negative : Bool) : Number := ofMagnitude negative infinityMagnitude

def notANumber : Number := ofMagnitude false (infinityMagnitude + twoPow 51)

/-- Significand and exponent: a finite magnitude stands for `m * 2 ^ (e - 1074)`. -/
def decompose (x : Number) : Nat × Nat :=
  let field := x.magnitude / twoPow 52
  let fraction := x.magnitude % twoPow 52
  if field = 0 then (fraction, 0) else (fraction + twoPow 52, field - 1)

/-- Place in the total order of all patterns: negative ones first, with `-0` right below `0`. -/
def orderKey (x : Number) : Int :=
  if x.isNegative then -(x.magnitude : Int) - 1 else x.magnitude

/-- Place in the numeric order, where both zeros share one place. -/
def numericKey (x : Number) : Int :=
  if x.isNegative then -(x.magnitude : Int) else x.magnitude

/-- Numeric equality: the two zeros are equal and a pattern that is no number equals nothing. -/
def eq (x y : Number) : Bool :=
  !x.isNaN && !y.isNaN && x.numericKey == y.numericKey

def lt (x y : Number) : Bool :=
  !x.isNaN && !y.isNaN && x.numericKey < y.numericKey

def le (x y : Number) : Bool :=
  !x.isNaN && !y.isNaN && x.numericKey ≤ y.numericKey

def neg (x : Number) : Number := ofMagnitude (!x.isNegative) x.magnitude

def lift₂ (f : Float → Float → Float) (x y : Number) : Number :=
  ⟨(f (Float.ofBits x.bits) (Float.ofBits y.bits)).toBits⟩

def add : Number → Number → Number := lift₂ (· + ·)

def sub : Number → Number → Number := lift₂ (· - ·)

def mul : Number → Number → Number := lift₂ (· * ·)

def div : Number → Number → Number := lift₂ (· / ·)

def pow : Number → Number → Number := lift₂ Float.pow

/-- The integer that a whole number below `10 ^ 15` in size stands for. -/
def toInt? (x : Number) : Option Int :=
  if x.isNaN || x.isInfinite then none
  else
    let (m, e) := x.decompose
    let whole := if 1074 ≤ e then m * twoPow (e - 1074) else m / twoPow (1074 - e)
    let isWhole := 1074 ≤ e || m % twoPow (1074 - e) == 0
    if isWhole && whole < tenPow 15 then
      some (if x.isNegative then -(whole : Int) else whole)
    else none

end Number

end ConfigScript
