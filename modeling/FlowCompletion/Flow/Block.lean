import FlowCompletion.Flow.Parameters

namespace FlowCompletion

namespace Eval

def stopAt (task : Task) (index : Nat) (t : Ty) : Eval Unit :=
  if task.target = index then throw (.found t) else pure ()

def blockBody (task : Task) (ev : Node → Eval Ty) (params : Parameters) (body : Option Node)
    (args : List Ty) : Eval Ty := do
  if params.isEmpty then setAll (Node.implicitArguments body args)
  else assignParameters task params args
  optional ev body

/-- What is done inside the frame of a block. It gives the result of the body and the values of
`next` and `break`. -/
def insideBlock (task : Task) (ev : Node → Eval Ty) (params : Parameters) (body : Option Node)
    (args : List Ty) : Eval (Ty × Option Ty × Option Ty) := do
  let result ← blockBody task ev params body args
  mergeJumps
  let s ← scope
  let w ← world
  return (result, s.get? w Label.toNext, s.get? w Label.toBreak)

/-- Runs a block that is written out. It may run any number of times; its own locals and labels end
with it. -/
def runLiteral (task : Task) (ev : Node → Eval Ty) (n : Node) (params : Parameters)
    (body : Option Node) : BlockRun := fun args selfType => do
  let ran ← conditional do
    let frame : Frame := { selfType, tracesIvars := selfType.isNone }
    let ((result, nexts, breaks), left) ←
      nested frame (unwritten n.declaredLocals ++ loopLabels) (insideBlock task ev params body args)
    let results := if left.terminated then [] else [result]
    return (Ty.union (results ++ nexts.toList), breaks)
  return ran.getD (Ty.nil, none)

def runSymbol (task : Task) (name : String) (index : Nat) : BlockRun := fun args _ => do
  let receiver := args.headD Ty.object
  stopAt task index receiver
  let result ← call task receiver name { positional := args.tail.map some } none true
  return (result, none)

def runUnknown : BlockRun := fun _ _ => return (Ty.object, none)

def blockOf (task : Task) (ev : Node → Eval Ty) (block : Option Node) : Eval (Option BlockRun) := do
  match block with
  | none => return none
  | some n =>
    match n.kind with
    | .block params body => return some (runLiteral task ev n params body)
    | .blockArgument none => return some runUnknown
    | .blockArgument (some inner) =>
      match inner.kind with
      | .symbol name _ => return some (runSymbol task name inner.index)
      | _ =>
        let _ ← ev inner
        return some runUnknown
    | _ => return none

def argumentType (ev : Node → Eval Ty) (argument : Node) : Eval (Option Ty) := do
  match argument.kind with
  | .splat inner =>
    let _ ← optional ev inner
    return none
  | _ => return some (← ev argument)

def keywordType (ev : Node → Eval Ty) (item : Node) : Eval (List (String × Ty)) := do
  match item.kind with
  | .assoc key value =>
    match key.kind with
    | .symbol name _ => return [(name, ← ev value)]
    | _ =>
      let _ ← ev key
      let _ ← ev value
      return []
  | _ =>
    let _ ← ev item
    return []

def splitKeywords (arguments : List Node) : List Node × List Node :=
  match arguments.getLast?.map Node.kind with
  | some (.keywordHash items) => (arguments.dropLast, items)
  | _ => (arguments, [])

def callArguments (ev : Node → Eval Ty) (arguments : Option Node) : Eval CallArguments := do
  let (positional, keywords) := splitKeywords (Node.argumentItems arguments)
  let positional ← positional.mapM (argumentType ev)
  let keywords := (← keywords.mapM (keywordType ev)).flatten
  return { positional, keywords }

def callNode (task : Task) (ev : Node → Eval Ty) (n : Node) (name : String)
    (arguments block : Option Node) (receiver : Ty) : Eval Ty := do
  let args ← callArguments ev arguments
  let run ← blockOf task ev block
  let result ← call task receiver name args run true
  if n.isAttributeWrite then return (args.positional.getLast?.join).getD Ty.nil
  return result

/-- With safe navigation the call is passed by for `nil`. -/
def evaluateCall (task : Task) (ev : Node → Eval Ty) (n : Node) (receiver : Option Node)
    (operator : Option CallOperator) (name : String) (arguments block : Option Node) :
    Eval Ty := do
  let receiver ← match receiver with
    | some n => ev n
    | none => selfType
  if operator = some .safeNav then
    let result ← conditional (callNode task ev n name arguments block receiver.nonnillable)
    return Ty.union (result.toList ++ if receiver.nillable then [Ty.nil] else [])
  callNode task ev n name arguments block receiver

end Eval

end FlowCompletion
