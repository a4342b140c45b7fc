import FlowCompletion.Flow.Basic

namespace FlowCompletion

namespace Eval

/-- Runs the block of a call for types of its parameters and, where the method says so, a receiver
of its own. It gives the result of the block and the value of a `break`. -/
abbrev BlockRun := List Ty → Option Ty → Eval (Ty × Option Ty)

structure CallResult where
  result : Option Ty
  breaks : List Ty := []
  ranBlock : Bool := false

/-- Variables of an overload are the params of the receiver, what the arguments say, and at last
what the result of the block says. -/
def callMatch (task : Task) (run : Option BlockRun) (m : MethodMatch) : Eval CallResult := do
  let r ← resolver task
  let own : TypeVars := Table.ofList ((m.receiver.instance?.map (·.params r.world)).getD [])
  let free := m.method.freeVariables.filter fun v => !Table.contains own v
  let vars := Table.extend own (r.unify free m.expected m.given)
  let result := fun (r : Resolver) (vars : TypeVars) =>
    if m.method.returnsBottom then none else some (r.read m.receiver vars m.method.function.result)
  match run, m.method.block with
  | some run, some block =>
    let params := block.function.required.map (r.read m.receiver vars)
    let (response, breaks) ← run params (block.selfType.map (r.read m.receiver vars))
    let r ← resolver task
    let unbound := free.filter fun v => !Table.contains vars v
    let vars := Table.extend vars (r.unify unbound [block.function.result] [response])
    return { result := result r vars, breaks := breaks.toList, ranBlock := true }
  | _, _ => return { result := result r vars }

def newInstances (w : World) (receiver : Ty) : List Ty :=
  (receiver.members.filterMap Member.module?).filter w.isClass |>.map Ty.inst

def guess? (w : World) (receiver : Ty) (name : String) : Option Ty :=
  Ty.ofConversion? name <|> receiver.ofReader? w name

/-- A block that no overload runs is still run once, for nothing known about its parameters. -/
def runUnselected (run : Option BlockRun) (calls : List CallResult) : Eval (List Ty) :=
  match run with
  | some run =>
    if calls.any CallResult.ranBlock then pure []
    else (fun response => response.2.toList) <$> run [] none
  | none => pure []

/-- Calls a method. If every overload never returns, control does not get past the call, unless the
block breaks out of it. -/
def call (task : Task) (receiver : Ty) (name : String) (args : CallArguments)
    (run : Option BlockRun) (guesses : Bool) : Eval Ty := do
  let args := { args with hasBlock := run.isSome }
  let found := (← resolver task).resolveMethod receiver name args
  let calls ← found.mapM (callMatch task run)
  let breaks := calls.flatMap CallResult.breaks ++ (← runUnselected run calls)
  let w ← world
  let results := calls.filterMap CallResult.result ++
    (if name = "new" then newInstances w receiver else [])
  let guessed := if found.isEmpty && results.isEmpty && guesses then (guess? w receiver name).toList
    else []
  if !found.isEmpty && calls.all (·.result.isNone) && breaks.isEmpty then
    change Scope.terminate
  return Ty.union (results ++ guessed ++ breaks)

def convert (task : Task) (t : Ty) (method : String) : Eval Ty :=
  call task t method {} none false

/-- The types of the elements of the array members, after conversion where that gives an array, and
the members that are no arrays. -/
def splitArrays (convert : Ty → Eval Ty) (t : Ty) : Eval (List Ty × List Ty) := do
  let parts ← t.members.mapM fun m => do
    let member := Ty.ofMember m
    let elements := fun (w : World) (t : Ty) => (t.param? w "Elem").getD Ty.object
    if member.isInstanceOf .array then return ([elements (← world) member], [])
    let converted ← convert member
    if converted.isInstanceOf .array then return ([elements (← world) converted], [])
    return ([], [member])
  return (parts.flatMap Prod.fst, parts.flatMap Prod.snd)

def unionOf? (types : List Ty) : Option Ty :=
  if types.isEmpty then none else some (Ty.union types)

def partitionArrays (task : Task) (t : Ty) (method : String) : Eval (Option Ty × Option Ty) := do
  let (elements, others) ← splitArrays (convert task · method) t
  return (unionOf? elements, unionOf? others)

/-- As many values as there are targets: the first may be the value itself, the others are
elements. -/
def spread (element : Option Ty) (others : List Ty) (size : Nat) : List Ty :=
  Ty.union (element.toList ++ others) :: element.toList.flatMap (List.replicate (size - 1))

def spreadValue (task : Task) (t : Ty) (size : Nat) : Eval (List Ty) := do
  let (element, other) ← partitionArrays task t "to_ary"
  return spread element other.toList size

end Eval

end FlowCompletion
