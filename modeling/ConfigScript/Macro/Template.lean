import ConfigScript.Macro.Builder
import ConfigScript.Node.Marks

/-! # Templates under construction

While the body of a macro is read, nodes that refer to parameters, and nodes that other macros will
be applied to, are marked, and what is to happen to them is kept as pending. The finished body is
searched for the marks, children before parents, so that the edits inside a call run before it. -/

namespace ConfigScript

/-- A macro whose statement is being read. The parameters of a function macro start with
`self`. -/
structure Template where
  start : Nat
  signature : Signature
  params : List Param
  /-- What is to happen to marked nodes; the paths are not known yet. -/
  pending : List (Nat × Edit) := []
  nextMark : Nat := 0
  inferences : Option (List ShapeSet) := none
  optionalSeen : Bool := false
  invalid : Bool := false

/-- Moves an edit to a path. -/
def Edit.moveTo (path : Path) : Edit → Edit
  | .value _ i => .value path i
  | .rename _ i => .rename path i
  | .call _ m => .call path m

namespace Template

def begin (start : Nat) (name : String) (kind : MacroKind) : Template :=
  { start, signature := ⟨name, kind⟩, params := if kind.isFunction then [⟨"self", none⟩] else [] }

def kind (t : Template) : MacroKind := t.signature.kind

def invalidate (t : Template) : Template := { t with invalid := true }

def paramIndex? (t : Template) (name : String) : Option Nat :=
  t.params.findIdx? fun p => p.name == name

def addParam (t : Template) (name : String) (default : Option Node) (position : Nat) :
    Template × List Report :=
  if t.kind = .constant then
    (t.invalidate, [Report.error "Constant macros cannot have parameters"])
  else if t.kind = .access then
    (t.invalidate, [Report.error "Access macros cannot have parameters"])
  else if (t.paramIndex? name).isSome then
    let message :=
      if t.kind.isFunction && name == "self" then
        "Cannot define parameter named 'self' in function macros"
      else s!"Duplicated parameter '{name}'."
    (t.invalidate, [Report.errorAt message (some position)])
  else
    let misplaced := t.kind.isPositional && default.isNone && t.optionalSeen
    let rs :=
      if misplaced then
        [Report.errorAt (s!"Optional parameters of {t.kind.label} macro should be consecutive, "
          ++ "placed at end of the parameter list") (some position)]
      else []
    ({ t with
        params := t.params ++ [⟨name, default⟩]
        optionalSeen := t.optionalSeen || (t.kind.isPositional && default.isSome)
        invalid := t.invalid || misplaced }, rs)

/-- A list of accepted shapes with a place for each of `n` parameters. -/
def padShapes (n : Nat) (shapes : List ShapeSet) : List ShapeSet :=
  shapes ++ List.replicate (n - shapes.length) .any

def narrow (t : Template) (i : Nat) (p : Param) (shapes : ShapeSet) : Template × List Report :=
  let inferences := padShapes t.params.length (t.inferences.getD [])
  let current := (inferences[i]?).getD .any
  if current.isEmpty || current == shapes then ({ t with inferences := some inferences }, [])
  else
    let narrowed := current.inter shapes
    let rs :=
      if narrowed.isEmpty then
        [Report.warning (s!"Parameter '{p.name}' has no valid input: needs to satisfy both "
          ++ s!"{current.text} AND {shapes.text}")]
      else if p.default.any fun d => !narrowed.accepts d then
        [Report.warning s!"Default value of the parameter '{p.name}' is invalid"]
      else []
    ({ t with inferences := some (inferences.set i narrowed) }, rs)

def mark (t : Template) (n : Node) (e : Edit) : Node × Template :=
  (n.setMark (some t.nextMark),
    { t with pending := t.pending ++ [(t.nextMark, e)], nextMark := t.nextMark + 1 })

/-- The text of a primitive, or the name of a collection. -/
def wordOf : Node → String
  | .primitive s _ => s
  | .object name _ _ => name
  | .list name _ _ _ => name

/-- Marks a node that refers to a parameter: a primitive will be replaced by the argument, and a
collection will take its name from it, so that the argument has to be a primitive. -/
def resolveParam? (t : Template) (n : Node) : Option (Node × Template × List Report) :=
  match t.params.zipIdx.find? fun (p, _) => p.name == wordOf n with
  | none => none
  | some (p, i) =>
    let (t, rs) := if n.isPrimitive then (t, []) else t.narrow i p .primitive
    if t.invalid then some (n, t, rs)
    else
      let (n, t) := t.mark n (if n.isPrimitive then .value [] i else .rename [] i)
      some (n, t, rs)

/-- Marks a node that a macro will be applied to. -/
def deferCall (t : Template) (m : Macro) (n : Node) : Node × Template := t.mark n (.call [] m)

/-- The pending edits of marked nodes, in the order of the nodes, and those of no node. -/
def locate (pending : List (Nat × Edit)) : List (Path × Node) → List Edit × List (Nat × Edit)
  | [] => ([], pending)
  | (path, n) :: rest =>
    match n.mark.bind fun m => pending.find? (·.1 == m) with
    | none => locate pending rest
    | some (m, e) =>
      let (es, left) := locate (pending.eraseP (·.1 == m)) rest
      (e.moveTo path :: es, left)

/-- The macro with the given body, unless something about its definition was invalid. -/
def finish (t : Template) (body : Node) : Option Macro × List Report :=
  if t.invalid then (none, [])
  else
    let (edits, left) := locate t.pending body.postOrder
    if !left.isEmpty then
      (none, [Report.errorAt ("Unresolved macro operation: "
        ++ String.intercalate ", " (left.map fun p => p.2.action)) (some t.start)])
    else
      let h : MacroHead :=
        ⟨t.signature, if t.kind.isFunction then t.params.drop 1 else t.params,
          t.inferences.map (padShapes t.params.length)⟩
      match do checkParams h.params; Macro.checkHead h with
      | .ok () => (some (.template h body.clearMarks edits), [])
      | .error f => (none, [Report.errorAt f.message (some t.start)])

end Template

end ConfigScript
