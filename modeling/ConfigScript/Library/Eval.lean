import ConfigScript.Library.Operators
import ConfigScript.Macro.Apply
import ConfigScript.Macro.Builder

/-! # Evaluation of operator trees

Operands are numbers, booleans and texts; texts take part in equality alone. Anything that cannot
be evaluated is reported once and gives no value. -/

namespace ConfigScript.Library

inductive Value
  | number (x : Number)
  | bool (b : Bool)
  | text (s : String)
  deriving DecidableEq, Repr

namespace Value

/-- Reads a primitive: a number if it can be one, then a boolean, else a text. -/
def ofText (s : String) : Value :=
  match (Number.readTrimmed? s).filter fun x => !x.isNaN with
  | some x => .number x
  | none => if s = "true" then .bool true else if s = "false" then .bool false else .text s

/-- A whole number below `10 ^ 15` in size is written as an integer. -/
def shown : Value → String
  | number x =>
    match x.toInt? with
    | some n => toString n
    | none => x.text
  | bool b => if b then "true" else "false"
  | text s => s

def same : Value → Value → Bool
  | number x, number y => x.eq y
  | bool a, bool b => a == b
  | text s, text t => s == t
  | _, _ => false

end Value

/-- What a computation gives, with its reports. -/
abbrev Evaluation := Option Value × List Report

def reject (message : String) (position : Option Nat) : Evaluation :=
  (none, [Report.errorAt message position])

def evalUnary (op : String) (a : Value) (position : Option Nat) : Evaluation :=
  match op, a with
  | "!", .bool b => (some (.bool !b), [])
  | "-", .number x => (some (.number x.neg), [])
  | "+", .number x => (some (.number x), [])
  | op, a =>
    if ["!", "-", "+"].contains op then reject s!"Cannot apply '{op}' to '{a.shown}'" position
    else reject s!"Unknown operator '{op}'" position

/-- The operators that `binaryValue?` knows beside the equalities. -/
def binarySigns : List String :=
  ["+", "-", "*", "/", "^", "**", ">", "<", ">=", "<=", "&&", "||", "&", "|"]

def bitwise? (f : Int64 → Int64 → Int64) (x y : Number) : Option Value := do
  let m ← x.toInt?
  let n ← y.toInt?
  return .number (Number.ofInt (f (Int64.ofInt m) (Int64.ofInt n)).toInt)

/-- The value of a binary operation, if the operator takes operands of these kinds. -/
def binaryValue? (op : String) : Value → Value → Option Value
  | .number x, .number y =>
    match op with
    | "+" => some (.number (x.add y))
    | "-" => some (.number (x.sub y))
    | "*" => some (.number (x.mul y))
    | "/" => some (.number (x.div y))
    | "^" => some (.number (x.pow y))
    | "**" => some (.number (x.pow y))
    | ">" => some (.bool (y.lt x))
    | "<" => some (.bool (x.lt y))
    | ">=" => some (.bool (y.le x))
    | "<=" => some (.bool (x.le y))
    | "&" => bitwise? (· &&& ·) x y
    | "|" => bitwise? (· ||| ·) x y
    | _ => none
  | .bool a, .bool b =>
    match op with
    | "&&" => some (.bool (a && b))
    | "||" => some (.bool (a || b))
    | "&" => some (.bool (a && b))
    | "|" => some (.bool (a || b))
    | _ => none
  | _, _ => none

/-- Whether the operation divides a number by zero. -/
def dividesByZero (op : String) : Value → Value → Bool
  | .number _, .number y => op == "/" && y.isZero
  | _, _ => false

def evalBinary (op : String) (a b : Value) (position : Option Nat) : Evaluation :=
  if op = "==" then (some (.bool (a.same b)), [])
  else if op = "!=" then (some (.bool !(a.same b)), [])
  else if dividesByZero op a b then reject "Division by zero" position
  else
    match binaryValue? op a b with
    | some v => (some v, [])
    | none =>
      if binarySigns.contains op then
        reject s!"Cannot apply '{op}' to '{a.shown}' and '{b.shown}'" position
      else reject s!"Unknown operator '{op}'" position

/-- Evaluates operands before their operation, left to right, up to the first failure. -/
def evaluate : Node → Evaluation
  | .primitive s _ => (some (Value.ofText s), [])
  | .list name true items info =>
    match items with
    | [a] =>
      if name.isEmpty then evaluate a
      else
        match evaluate a with
        | (some v, rs) =>
          let r := evalUnary name v info.position
          (r.1, rs ++ r.2)
        | (none, rs) => (none, rs)
    | [a, b] =>
      if name.isEmpty then
        reject s!"Cannot evaluate operation '{(Node.list name true [a, b] info).text}'"
          info.position
      else
        match evaluate a with
        | (none, rs) => (none, rs)
        | (some v, rs) =>
          match evaluate b with
          | (none, ss) => (none, rs ++ ss)
          | (some w, ss) =>
            let r := evalBinary name v w info.position
            (r.1, rs ++ ss ++ r.2)
    | items =>
      reject s!"Cannot evaluate operation '{(Node.list name true items info).text}'" info.position
  | n => reject s!"Cannot evaluate {n.shape.name} '{n.text}'" n.position

def evalNode (n : Node) : Option Node × List Report :=
  let (v, rs) := evaluate n
  (v.map fun v => Node.value v.shown, rs)

/-- What a native body makes of an optional node: its absence is a refusal. -/
def expansionOf : Option Node × List Report → Expansion
  | (some n, rs) => ⟨.produced n, rs⟩
  | (none, rs) => ⟨.refused, rs⟩

/-- A native body that is called with fewer arguments than it has parameters. -/
def tooFewArguments : Expansion := ⟨.crashed (some "too few arguments"), []⟩

def evalBody : List Node → Bool → Expansion
  | n :: _, _ => expansionOf (evalNode n)
  | [], _ => tooFewArguments

/-- The definition of a library macro; its declaration is well formed. -/
def libraryMacro (name : String) (kind : MacroKind) (params : List Param)
    (inferences : Option (List ShapeSet)) (run : List Node → Bool → Expansion) : Macro :=
  .native ⟨⟨name, kind⟩, params, inferences⟩ run

def evalUnit : Definition :=
  operatorsUnit.addMacros [libraryMacro "eval" .operation [⟨"expr", none⟩] none evalBody]

end ConfigScript.Library
