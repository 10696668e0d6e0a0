import ConfigScript.Node.Basic
import ConfigScript.Node.Properties

/-! # Equality of values

Two nodes are the same value if they agree in shape, names, texts and children. Positions and
marks do not count, and objects are maps: the order of their properties does not count either. -/

namespace ConfigScript.Node

mutual

def same : Node → Node → Bool
  | primitive s _, primitive t _ => s == t
  | object a ps _, object b qs _ => a == b && ps.length == qs.length && sameProperties ps qs
  | list a op xs _, list b oq ys _ => a == b && op == oq && sameItems xs ys
  | _, _ => false

/-- Every property on the left has the same value on the right. -/
def sameProperties : List (String × Node) → List (String × Node) → Bool
  | [], _ => true
  | (key, v) :: ps, qs =>
    (match Properties.get? key qs with
      | some w => same v w
      | none => false) && sameProperties ps qs

def sameItems : List Node → List Node → Bool
  | [], [] => true
  | x :: xs, y :: ys => same x y && sameItems xs ys
  | _, _ => false

end

/-- Equality of optional values, such as the defaults of parameters. -/
def sameOption : Option Node → Option Node → Bool
  | none, none => true
  | some a, some b => same a b
  | _, _ => false

end ConfigScript.Node
