import ConfigScript.Operator.Table

/-! # Precedence levels

The operators of a table, sorted into levels of equal priority, fixity and associativity, from the
loosest to the tightest. -/

namespace ConfigScript

/-- Operators that are parsed together. -/
structure Level where
  fixity : Fixity
  priority : Number
  rightAssociative : Bool
  operators : List Operator
  deriving DecidableEq, Repr

namespace Level

def single (o : Operator) : Level := ⟨o.fixity, o.priority, o.isRightAssociative, [o]⟩

def accepts (l : Level) (o : Operator) : Bool :=
  l.fixity == o.fixity && l.priority.orderKey == o.priority.orderKey
    && l.rightAssociative == o.isRightAssociative

def get? (l : Level) (name : String) (keyword : Bool) : Option Operator :=
  l.operators.find? (Operator.spelledAs name keyword)

end Level

/-- Binding order: by priority, then binary before prefix before postfix, then left-associative
first. -/
def Operator.bindsBefore (a b : Operator) : Bool :=
  if a.priority.orderKey = b.priority.orderKey then
    if a.fixity = b.fixity then !a.isRightAssociative || b.isRightAssociative
    else a.fixity.rank < b.fixity.rank
  else a.priority.orderKey < b.priority.orderKey

/-- Gathers neighbours of one level. -/
def gatherLevels : List Operator → List Level
  | [] => []
  | o :: os =>
    match gatherLevels os with
    | [] => [Level.single o]
    | l :: ls =>
      if l.accepts o then { l with operators := o :: l.operators } :: ls
      else Level.single o :: l :: ls

/-- The operators in binding order; those that bind alike stay in the order of the table. -/
def OperatorTable.inBindingOrder (t : OperatorTable) : List Operator :=
  t.operators.foldr (insertBy Operator.bindsBefore) []

def OperatorTable.levels (t : OperatorTable) : List Level := gatherLevels t.inBindingOrder

end ConfigScript
