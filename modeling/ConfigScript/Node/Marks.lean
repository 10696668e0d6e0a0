import ConfigScript.Node.Path

/-! # Template marks

The marks of a tree, and removing every one of them, once a macro template is finished. -/

namespace ConfigScript.Node

/-- The marks of a tree, children before their parent. -/
def marks (n : Node) : List Nat := n.postOrder.filterMap fun p => p.2.mark

mutual

def clearMarks : Node → Node
  | primitive text i => primitive text { i with mark := none }
  | object name props i => object name (clearMarksProperties props) { i with mark := none }
  | list name op items i => list name op (clearMarksItems items) { i with mark := none }

def clearMarksProperties : List (String × Node) → List (String × Node)
  | [] => []
  | (key, v) :: ps => (key, clearMarks v) :: clearMarksProperties ps

def clearMarksItems : List Node → List Node
  | [] => []
  | x :: xs => clearMarks x :: clearMarksItems xs

end

end ConfigScript.Node
