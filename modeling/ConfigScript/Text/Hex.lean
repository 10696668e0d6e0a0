/-! # Hexadecimal digits -/

namespace ConfigScript.Text

def hexDigit? (c : Char) : Option Nat :=
  if c.isDigit then some (c.toNat - '0'.toNat)
  else if 'a' ≤ c && c ≤ 'f' then some (c.toNat - 'a'.toNat + 10)
  else if 'A' ≤ c && c ≤ 'F' then some (c.toNat - 'A'.toNat + 10)
  else none

/-- Value of exactly `n` hexadecimal digits at the front, after digits of a given value. -/
def hexValue? : Nat → Nat → List Char → Option Nat
  | 0, value, _ => some value
  | _ + 1, _, [] => none
  | n + 1, value, c :: cs => (hexDigit? c).bind fun d => hexValue? n (value * 16 + d) cs

end ConfigScript.Text
