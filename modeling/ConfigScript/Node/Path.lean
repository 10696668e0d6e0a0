import ConfigScript.Node.Basic
import ConfigScript.Node.Properties

/-! # Paths into a value

A path is a list of steps from a node to one of its descendants. -/

namespace ConfigScript

inductive Step
  | property (key : String)
  | index (i : Nat)
  deriving DecidableEq, Repr

abbrev Path := List Step

def Step.text : Step → String
  | .property key => "." ++ key
  | .index i => s!"[{i}]"

def Path.text (p : Path) : String :=
  if p.isEmpty then "<root>" else String.join (p.map Step.text)

/-- Changes the element at an index, if there is one. -/
def modifyItem? (f : Node → Option Node) : Nat → List Node → Option (List Node)
  | _, [] => none
  | 0, x :: xs => (f x).map (· :: xs)
  | i + 1, x :: xs => (modifyItem? f i xs).map (x :: ·)

namespace Node

def child? : Step → Node → Option Node
  | .property key, object _ props _ => Properties.get? key props
  | .index i, list _ _ items _ => items[i]?
  | _, _ => none

def get? : Path → Node → Option Node
  | [], n => some n
  | step :: path, n => (n.child? step).bind (get? path)

/-- Rewrites the node at the end of a path; nothing results if the path leads nowhere or the
rewriting gives nothing. -/
def modify? (f : Node → Option Node) : Path → Node → Option Node
  | [], n => f n
  | .property key :: path, object name props i =>
    (Properties.modify? key (modify? f path) props).map fun ps => object name ps i
  | .index k :: path, list name op items i =>
    (modifyItem? (modify? f path) k items).map fun xs => list name op xs i
  | _, _ => none

def replace? (n : Node) (path : Path) (new : Node) : Option Node :=
  n.modify? (fun _ => some new) path

def replace (n : Node) (path : Path) (new : Node) : Except Fault Node :=
  match n.replace? path new with
  | some m => .ok m
  | none => .error (.invalidPath path.text)

mutual

/-- Every node of the tree with its path, children before their parent and siblings in order. The
given path is that of the node itself, in reverse. -/
def postOrderFrom (path : Path) : Node → List (Path × Node)
  | primitive text i => [(path.reverse, primitive text i)]
  | object name props i =>
    postOrderProperties path props ++ [(path.reverse, object name props i)]
  | list name op items i =>
    postOrderItems path 0 items ++ [(path.reverse, list name op items i)]

def postOrderProperties (path : Path) : List (String × Node) → List (Path × Node)
  | [] => []
  | (key, v) :: ps => postOrderFrom (.property key :: path) v ++ postOrderProperties path ps

def postOrderItems (path : Path) (k : Nat) : List Node → List (Path × Node)
  | [] => []
  | x :: xs => postOrderFrom (.index k :: path) x ++ postOrderItems path (k + 1) xs

end

def postOrder (n : Node) : List (Path × Node) := postOrderFrom [] n

end Node

end ConfigScript
