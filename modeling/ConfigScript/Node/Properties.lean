/-! # Properties

A map from keys to values that keeps the order in which keys were first put: a list of pairs with
distinct keys. -/

namespace ConfigScript.Properties

variable {α β : Type}

def get? (key : String) (ps : List (String × α)) : Option α := ps.lookup key

def keys (ps : List (String × α)) : List String := ps.map Prod.fst

def contains (key : String) (ps : List (String × α)) : Bool := ps.any (·.1 == key)

/-- Puts a value under a key: a known key keeps its place, a new one goes to the end. -/
def put (key : String) (value : α) : List (String × α) → List (String × α)
  | [] => [(key, value)]
  | (k, v) :: ps => if k = key then (k, value) :: ps else (k, v) :: put key value ps

/-- Changes the value under a key, if the key is there. -/
def modify? (key : String) (f : α → Option α) :
    List (String × α) → Option (List (String × α))
  | [] => none
  | (k, v) :: ps =>
    if k = key then (f v).map fun w => (k, w) :: ps
    else (modify? key f ps).map ((k, v) :: ·)

/-- Removes a key; the others keep their order. -/
def erase (key : String) (ps : List (String × α)) : List (String × α) :=
  ps.filter fun p => p.1 != key

/-- Puts pairs one after the other into a map. -/
def ofPairs (pairs : List (String × α)) : List (String × α) :=
  pairs.foldl (fun ps p => put p.1 p.2 ps) []

end ConfigScript.Properties
