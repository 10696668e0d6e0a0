import ConfigScript.Macro.Basic

/-! # Applying macros

Application binds the argument to the parameters, checks the shapes of the arguments, and then
fills in the template or runs the native body. -/

namespace ConfigScript

def bindProperties (params : List Param) (args : List (String × Node)) :
    Option (List Node) × List Report :=
  let bound := params.map fun p => (p, (Properties.get? p.name args).or p.default)
  let missing := bound.filter fun b => b.2.isNone
  let unused := args.filter fun a => !params.any fun p => p.name == a.1
  (if missing.isEmpty then some (bound.filterMap Prod.snd) else none,
    missing.map (fun b => Report.error s!"Missing argument '{b.1.name}'")
      ++ unused.map fun a => Report.warning s!"Unused argument '{a.1}'")

/-- The defaults of parameters that have no argument; none if one of them is required. -/
def defaultsOf : List Param → Option (List Node)
  | [] => some []
  | p :: ps => p.default.bind fun v => (defaultsOf ps).map (v :: ·)

def bindItems (params : List Param) (args : List Node) : Option (List Node) × List Report :=
  if args.length < requiredCount params then
    (none, [Report.error (s!"Not enough parameters: minimum of {requiredCount params} expected, "
      ++ s!"{args.length} provided")])
  else
    let surplus :=
      if params.length < args.length then
        [Report.warning (s!"Unused parameters: maximum of {params.length} expected, "
          ++ s!"{args.length} provided")]
      else []
    ((defaultsOf (params.drop args.length)).map (args.take params.length ++ ·), surplus)

/-- Binds the one argument that a kind with brackets is applied to. -/
def bindBracketed (h : MacroHead) (arg : Node) : Option (List Node) × List Report :=
  if h.signature.kind.isKeyed then
    match arg.properties? with
    | some props => bindProperties h.params props
    | none => (none, [Report.error "Expected object as argument"])
  else
    match arg.items? with
    | some items => bindItems h.params items
    | none => (none, [Report.error "Expected list as argument"])

/-- A warning about elements of a call beyond the expected ones. -/
def surplusWarning (expected : Nat) (items : List Node) : List Report :=
  if expected < items.length then
    [Report.warning s!"Unused function parameters: {items.length} provided"]
  else []

/-- Decodes the argument of a macro into one node for each parameter, with `self` in front for the
function kinds. -/
def MacroHead.bind (h : MacroHead) (arg : Node) : Option (List Node) × List Report :=
  match h.signature.kind with
  | .constant => (some [], [])
  | .access =>
    match arg.items? with
    | some (self :: rest) => (some [self], surplusWarning 1 (self :: rest))
    | _ => (none, [Report.error "Expected 'self' as argument"])
  | kind =>
    if kind.isFunction then
      match arg.items? with
      | some (self :: args :: rest) =>
        let (bound, rs) := bindBracketed h args
        (bound.map (self :: ·), surplusWarning 2 (self :: args :: rest) ++ rs)
      | _ => (none, [Report.error "Expected pair of 'self' and 'args' as argument"])
    else bindBracketed h arg

def MacroHead.argumentName (h : MacroHead) (i : Nat) : String :=
  let name? (i : Nat) : String := ((h.params[i]?).map Param.name).getD "self"
  if h.signature.kind.isFunction then
    match i with
    | 0 => "self"
    | i + 1 => name? i
  else name? i

/-- One report for each argument whose shape is not accepted, counting arguments from `i`. -/
def MacroHead.shapeErrors (h : MacroHead) (i : Nat) : List (ShapeSet × Node) → List Report
  | [] => []
  | (expected, arg) :: rest =>
    (if expected.accepts arg then []
      else [Report.error (s!"Type of argument '{h.argumentName i}' does not match its inferred "
        ++ s!"type.\n  Expected type: {expected.text}\n  "
        ++ s!"Supplied argument: {(ShapeSet.ofShape arg.shape).text}")])
      ++ h.shapeErrors (i + 1) rest

def MacroHead.arguments (h : MacroHead) (arg : Node) : Option (List Node) × List Report :=
  match h.bind arg with
  | (none, rs) => (none, rs)
  | (some args, rs) =>
    match h.inferences with
    | none => (some args, rs)
    | some shapes =>
      let errors := h.shapeErrors 0 (shapes.zip args)
      (if errors.isEmpty then some args else none, rs ++ errors)

namespace Expansion

def produced (n : Node) : Expansion := ⟨.produced n, []⟩

def fault (f : Fault) : Expansion := ⟨.fault f, []⟩

def after (rs : List Report) (e : Expansion) : Expansion := { e with reports := rs ++ e.reports }

/-- Goes on with the node produced, if there is one. -/
def andThen (e : Expansion) (f : Node → Expansion) : Expansion :=
  match e.result with
  | .produced n => (f n).after e.reports
  | _ => e

end Expansion

/-- Puts a node at a path of a template. -/
def placeAt (path : Path) (target new : Node) : Expansion :=
  match target.replace path new with
  | .ok n => .produced n
  | .error f => .fault f

/-- The argument at an index; scripts record only indices of parameters. -/
def argumentAt (args : List Node) (i : Nat) (f : Node → Expansion) : Expansion :=
  match args[i]? with
  | some a => f a
  | none => .fault (.failedMacro "<template>" s!"no argument at index {i}")

mutual

/-- Applies a macro to a node. The flag asks for fresh copies of constants and is passed on to
native bodies. -/
def Macro.apply : Macro → Node → Bool → Expansion
  | .template h body edits, arg, copy =>
    match h.arguments arg with
    | (some args, rs) => (applyEdits edits args body copy).after rs
    | (none, rs) => ⟨.refused, rs⟩
  | .native h run, arg, copy =>
    match h.arguments arg with
    | (some args, rs) => (run args copy).after rs
    | (none, rs) => ⟨.refused, rs⟩

def applyEdits : List Edit → List Node → Node → Bool → Expansion
  | [], _, target, _ => .produced target
  | e :: es, args, target, copy =>
    (e.apply args target copy).andThen fun n => applyEdits es args n copy

def Edit.apply : Edit → List Node → Node → Bool → Expansion
  | .value path i, args, target, _ =>
    match target.get? path with
    | none => .fault (.invalidPath path.text)
    | some _ => argumentAt args i fun a => placeAt path target a
  | .rename path i, args, target, _ =>
    match target.get? path with
    | none => .fault (.invalidPath path.text)
    | some slot =>
      argumentAt args i fun
        | .primitive name _ => placeAt path target (slot.setName name)
        | a => ⟨.refused,
            [Report.error s!"Cannot use {a.shape.name} as a name; expected primitive"]⟩
  | .call path callee, _, target, copy =>
    match target.get? path with
    | none => .fault (.invalidPath path.text)
    | some slot => (callee.apply slot copy).andThen fun n => placeAt path target n

end

end ConfigScript
