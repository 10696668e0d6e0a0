import ConfigScript.Number.Basic

/-! # Shortest decimal text

A finite number is written with the fewest significant digits that read back to it, and among
those the nearest; a tie goes up. Notation is positional at every size, with no trailing `.0`. -/

namespace ConfigScript.Number

/-- Number of decimal digits, none for zero. -/
def decimalLength (n : Nat) : Nat :=
  if n = 0 then 0 else (Nat.toDigits 10 n).length

/-- The position `k` of the decimal point of the positive ratio `num / den`:
`10 ^ (k - 1) ≤ num / den < 10 ^ k`. -/
def pointPosition (num den : Nat) : Int :=
  if den ≤ num then decimalLength (num / den) else 1 - (decimalLength ((den - 1) / num) : Int)

/-- The numbers that read back to one pattern, as an interval over a common denominator. -/
structure Interval where
  low : Nat
  value : Nat
  high : Nat
  den : Nat
  closed : Bool
  deriving Repr

/-- The reals nearer to `x` than to its neighbours. The gap below a power of two is half as wide;
the ends belong to the interval if the significand is even. -/
def interval (x : Number) : Interval :=
  let (m, e) := x.decompose
  let below := if m = twoPow 52 ∧ 0 < e then 1 else 2
  let up := if 1076 ≤ e then twoPow (e - 1076) else 1
  let den := if 1076 ≤ e then 1 else twoPow (1076 - e)
  ⟨(4 * m - below) * up, 4 * m * up, (4 * m + 2) * up, den, m % 2 = 0⟩

/-- Whether `num / den` lies in the interval. -/
def Interval.holds (i : Interval) (num den : Nat) : Bool :=
  if i.closed then i.low * den ≤ num * i.den && num * i.den ≤ i.high * den
  else i.low * den < num * i.den && num * i.den < i.high * den

/-- The multiple of `10 ^ (k - t)` in the interval that is nearest to its value, if there is one,
as a count of that unit. -/
def Interval.onGrid? (i : Interval) (k : Int) (t : Nat) : Option Nat :=
  let step := k - t
  let up := if 0 ≤ step then tenPow step.toNat else 1
  let down := if 0 ≤ step then 1 else tenPow (-step).toNat
  let floor := i.value * down / (i.den * up)
  let fitsFloor := i.holds (floor * up) down
  let fitsNext := i.holds ((floor + 1) * up) down
  -- the value is no nearer to `floor` than to `floor + 1`
  let upper := (2 * floor + 1) * (i.den * up) ≤ 2 * (i.value * down)
  match fitsFloor, fitsNext with
  | true, true => some (if upper then floor + 1 else floor)
  | true, false => some floor
  | false, true => some (floor + 1)
  | false, false => none

/-- Digits and point position of the shortest decimal, trying `t, t + 1, …` digits. -/
def shortestFrom (i : Interval) (k : Int) : Nat → Nat → Nat × Int
  | 0, t => (i.value * tenPow t / i.den, -t)
  | fuel + 1, t =>
    match i.onGrid? k t with
    | some n => (n, k - t)
    | none => shortestFrom i k fuel (t + 1)

/-- A decimal `digits * 10 ^ exponent` in positional notation, without superfluous zeros. -/
def positional (digits : Nat) (exponent : Int) : String :=
  let cs := (Nat.toDigits 10 digits).reverse.dropWhile (· == '0') |>.reverse
  let point := (Nat.toDigits 10 digits).length + exponent
  if cs.isEmpty then "0"
  else if point ≤ 0 then
    "0." ++ String.ofList (List.replicate (-point).toNat '0' ++ cs)
  else if cs.length ≤ point.toNat then
    String.ofList (cs ++ List.replicate (point.toNat - cs.length) '0')
  else
    String.ofList (cs.take point.toNat) ++ "." ++ String.ofList (cs.drop point.toNat)

def text (x : Number) : String :=
  if x.isNaN then "NaN"
  else
    let body :=
      if x.isInfinite then "inf"
      else if x.isZero then "0"
      else
        let i := x.interval
        -- seventeen digits always suffice
        let (digits, exponent) := shortestFrom i (pointPosition i.value i.den) 17 1
        positional digits exponent
    if x.isNegative then "-" ++ body else body

end ConfigScript.Number
