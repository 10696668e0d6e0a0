import ConfigScript.Macro.Basic
import ConfigScript.Node.Equality

/-! # Overloads

The macros of one signature form a group. A call goes to the overload that leaves the fewest
supplied arguments unused; a tie is an error, never a silent choice. -/

namespace ConfigScript

/-- How many properties an object macro leaves unused, if all its required ones are there. -/
def keyedScore (params : List Param) (args : List (String × Node)) : Option Nat :=
  if (requiredParams params).all fun p => Properties.contains p.name args then
    let supplied := params.filter fun p => p.isOptional && Properties.contains p.name args
    some (args.length - (requiredCount params + supplied.length))
  else none

/-- How many elements a positional macro leaves unused, if there are enough of them. -/
def positionalScore (params : List Param) (count : Nat) : Option Nat :=
  if requiredCount params ≤ count then some (count - params.length) else none

namespace Macro

/-- How well a macro fits an argument in its brackets; lower is better. -/
def score (arg : Node) (m : Macro) : Option Nat :=
  if m.kind.isKeyed then arg.properties?.bind (keyedScore m.params)
  else arg.items?.bind fun items => positionalScore m.params items.length

/-- Whether a new macro takes the place of an existing one of its signature. -/
def overwrites (new old : Macro) : Bool :=
  if new.kind.isKeyed then
    new.params.length == old.params.length
      && (new.params.zip old.params).all fun (p, q) =>
        p.name == q.name && Node.sameOption p.default q.default
  else
    new.params.length == old.params.length
      && requiredCount new.params == requiredCount old.params

/-- Whether some argument could fit both macros equally well, as far as the check on registration
looks. -/
def overlaps (new old : Macro) : Bool :=
  if new.kind.isKeyed then
    let names (m : Macro) : List String := (requiredParams m.params).map Param.name
    (names new).all (names old).contains && (names old).all (names new).contains
  else
    requiredCount old.params ≤ new.params.length && requiredCount new.params ≤ old.params.length

end Macro

/-- The least score so far, and the members of a list that have it, in order. -/
structure Leaders (α : Type) where
  score : Nat
  members : List α

/-- Weighs one more member of a list against the leaders so far. -/
def Leaders.weigh {α : Type} (score : α → Option Nat) (leaders : Option (Leaders α)) (x : α) :
    Option (Leaders α) :=
  match score x, leaders with
  | none, _ => leaders
  | some n, none => some ⟨n, [x]⟩
  | some n, some l =>
    if l.score < n then some l
    else if l.score = n then some ⟨n, l.members ++ [x]⟩
    else some ⟨n, [x]⟩

/-- The members of a list with the least score, in order. -/
def bestOf {α : Type} (score : α → Option Nat) (xs : List α) : List α :=
  ((xs.foldl (Leaders.weigh score) none).map Leaders.members).getD []

def usageList (header : String) (ms : List Macro) : String :=
  header ++ String.join (ms.map fun m => "\n  " ++ m.usage true)

def chooseOverload (group : List Macro) (arg : Node) : Option Macro × List Report :=
  match bestOf (Macro.score arg) group with
  | [m] => (some m, [])
  | [] =>
    let message :=
      if group.isEmpty then "No macro defined, this shouldn't happen"
      else usageList "Wrong usage, expected:" group
    (none, [Report.error message])
  | m :: tied =>
    (none, [Report.error
      (usageList s!"Ambiguous usage of macro {m.signature.text}:" (m :: tied))])

/-- Finds the macro of a group that a call means. Function kinds look at the second element of the
call; a constant or access macro stands alone in its group. -/
def searchGroup (kind : MacroKind) (group : List Macro) (arg : Node) :
    Option Macro × List Report :=
  if kind.takesParameters then
    if kind.isFunction then
      match arg.items? with
      | some (_ :: args :: _) => chooseOverload group args
      | _ => (none, [Report.error "Expected pair of 'self' and 'args' as argument"])
    else chooseOverload group arg
  else (group.head?, [])

end ConfigScript
