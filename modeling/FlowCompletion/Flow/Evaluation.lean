import FlowCompletion.Flow.Assignment
import FlowCompletion.Flow.Block
import FlowCompletion.Flow.Collection
import FlowCompletion.Flow.Definition

namespace FlowCompletion

def JumpKind.label : JumpKind → String
  | .toReturn => Label.toReturn
  | .toBreak => Label.toBreak
  | .toNext => Label.toNext

def Quoting.type : Quoting → Ty
  | .string => Ty.string
  | .symbol => Ty.symbol
  | .regexp => Ty.regexp

namespace Eval

def evaluateBranches (ev : Node → Eval Ty) (whenTrue whenFalse : Option Node) : Eval Ty := do
  return Ty.union (← branches [optional ev whenTrue, optional ev whenFalse])

def loopBody (ev : Node → Eval Ty) (body : Option Node) : Eval (Option Ty) := do
  if let some n := body then
    let _ ← conditional (ev n)
  mergeJumps
  return (← scope).get? (← world) Label.toBreak

def evaluateLoop (ev : Node → Eval Ty) (predicate : Node) (body : Option Node) : Eval Ty := do
  let (breaks, _) ← nested {} loopLabels do
    let _ ← ev predicate
    loopBody ev body
  return breaks.elim Ty.nil fun t => Ty.union [t, Ty.nil]

def evaluateFor (task : Task) (ev : Node → Eval Ty) (index collection : Node)
    (body : Option Node) : Eval Ty := do
  let collection ← ev collection
  let (breaks, _) ← nested {} loopLabels do
    let (element, other) ← partitionArrays task collection "to_ary"
    assign task ev index (Ty.union (element.toList ++ other.toList))
    loopBody ev body
  return breaks.elim collection fun t => Ty.union [t, collection]

/-- Exceptions of these classes are bound to the reference; without classes any standard error. -/
def exceptionType (w : World) (classes : Ty) : Ty :=
  match (classes.members.filterMap Member.module?).filter w.isClass with
  | [] => Ty.inst .standardError
  | found => Ty.union (found.map Ty.inst)

def evaluateRescue (task : Task) (ev : Node → Eval Ty) (exceptions : List Node)
    (reference body : Option Node) : Eval Ty := do
  let classes ← elementType task ev exceptions
  if let some target := reference then
    assign task ev target (exceptionType (← world) classes)
  optional ev body

/-- A body may be left for the rescue clause at its end; an `else` clause takes the place of the
result. -/
def evaluateBegin (ev : Node → Eval Ty) (body rescue otherwise ensure : Option Node) : Eval Ty := do
  let result ← optional ev body
  let result ← match rescue, otherwise with
    | none, _ => pure result
    | some rescue, some otherwise => Ty.union <$> branches [ev rescue, ev otherwise]
    | some rescue, none => (fun t => Ty.union (result :: t.toList)) <$> conditional (ev rescue)
  let _ ← optional ev ensure
  return result

def evaluateMultiWrite (task : Task) (ev : Node → Eval Ty) (targets : List Node) (value : Node) :
    Eval Ty := do
  let whole := do
    let t ← ev value
    return (← spreadValue task t targets.length, t)
  let (values, result) ← match value.kind with
    | .array items =>
      if items.any Node.isSplat then whole
      else do
        let values ← items.mapM ev
        pure (values, Ty.arrayOf values)
    | _ => whole
  assignAll task ev targets values
  return result

def evaluateLambda (task : Task) (ev : Node → Eval Ty) (n : Node) (params : Parameters)
    (body : Option Node) : Eval Ty := do
  let _ ← nested {} (unwritten n.declaredLocals ++ allLabels) do
    let _ ← conditional do
      assignParameters task params []
      optional ev body
    mergeJumps
  return Ty.proc

def sequence (ev : Node → Eval Ty) (items : List Node) : Eval Ty :=
  items.foldlM (fun _ n => ev n) Ty.nil

def write (name : String) (t : Ty) : Eval Ty := do
  change (·.set name t)
  return t

def constantOr (t : Option Ty) : Ty := t.getD Ty.nil

def evaluateKind (task : Task) (ev : Node → Eval Ty) (n : Node) : Eval Ty := do
  match n.kind with
  | .program body => ev body
  | .statements items => sequence ev items
  | .parentheses inner | .otherwise inner => optional ev inner
  | .nil | .missing | .constTarget _ => return Ty.nil
  | .bool value => return Ty.inst (if value then .trueClass else .falseClass)
  | .self => selfType
  | .integer _ => return Ty.integer
  | .float _ => return Ty.float
  | .rational _ => return Ty.rational
  | .imaginary _ => return Ty.complex
  | .string .. | .shell _ => return Ty.string
  | .symbol .. => return Ty.symbol
  | .regexp _ => return Ty.regexp
  | .interpolated quoting parts =>
    let _ ← sequence ev parts
    return quoting.type
  | .array items => return Ty.arrayOf [← elementType task ev items]
  | .hash items | .keywordHash items => hashType task ev items
  | .range left right _ =>
    let bounds ← (left.toList ++ right.toList).mapM ev
    return Ty.instWith .range [("Elem", (Ty.union bounds).nonnillable)]
  | .varRead _ name | .varTarget _ name => read name
  | .varWrite _ name value => write name (← ev value)
  | .varOpWrite _ name operator value =>
    let left ← read name
    let right ← ev value
    write name (← call task left operator { positional := [some right] } none false)
  | .varOrWrite _ name value =>
    let left ← read name
    let right ← conditional (ev value)
    let kept := (left.members.filter fun m => !m.isNil).map Ty.ofMember
    write name (Ty.union (kept ++ right.toList))
  | .varAndWrite _ name value =>
    let left ← read name
    let right ← conditional (ev value)
    write name (Ty.union (left :: right.toList))
  | .constRead name => return constantOr ((← scope).resolveConstant (← world) name)
  | .constPath none name => return constantOr ((← scope).constant? (← world) .object name)
  | .constPath (some parent) name =>
    let parent ← ev parent
    let s ← scope
    let w ← world
    return constantOr (parent.singleton?.bind fun m => s.constant? w m name)
  | .constWrite name value =>
    let t ← ev value
    let owner ← constantOwner
    let w ← world
    change (·.setConstant w owner name t)
    return t
  | .call receiver operator name arguments block _ =>
    evaluateCall task ev n receiver operator name arguments block
  | .arguments items =>
    let _ ← sequence ev items
    return Ty.nil
  | .blockArgument inner =>
    let _ ← optional ev inner
    return Ty.proc
  | .lambda params body => evaluateLambda task ev n params body
  | .yield arguments | .super arguments =>
    let _ ← optional ev arguments
    return Ty.object
  | .ifThen predicate body subsequent =>
    let _ ← ev predicate
    evaluateBranches ev body subsequent
  | .unlessThen predicate body contrary =>
    let _ ← ev predicate
    evaluateBranches ev body contrary
  | .caseOf subject conditions contrary =>
    let _ ← optional ev subject
    return Ty.union (← branches (conditions.map ev ++ [optional ev contrary]))
  | .whenClause conditions body =>
    let _ ← sequence ev conditions
    optional ev body
  | .whileLoop predicate body | .untilLoop predicate body => evaluateLoop ev predicate body
  | .forLoop index collection body => evaluateFor task ev index collection body
  | .and left right =>
    let _ ← ev left
    let right ← conditional (ev right)
    return Ty.union (right.toList ++ [Ty.nil, Ty.inst .falseClass])
  | .or left right =>
    let left ← ev left
    let right ← conditional (ev right)
    return Ty.union (left :: right.toList)
  | .jump jump value =>
    let value ← jumpValue task ev value
    change (·.jump jump.label value)
    return Ty.nil
  | .beginBlock body rescue contrary ensure => evaluateBegin ev body rescue contrary ensure
  | .rescue exceptions reference body none => evaluateRescue task ev exceptions reference body
  | .rescue exceptions reference body (some next) =>
    return Ty.union (← branches [evaluateRescue task ev exceptions reference body, ev next])
  | .rescueModifier expression fallback =>
    let t ← ev expression
    let rescued ← conditional (ev fallback)
    return Ty.union (t :: rescued.toList)
  | .methodDef _ receiver params body => evaluateMethodDef task ev n receiver params body
  | .classDef path superclass body => evaluateModuleDef task ev path superclass body true
  | .moduleDef path body => evaluateModuleDef task ev path none body false
  | .multiWrite targets value => evaluateMultiWrite task ev targets value
  | .defined inner =>
    let _ ← conditional (ev inner)
    return Ty.union [Ty.string, Ty.nil]
  | .assoc .. | .assocSplat _ | .splat _ | .block .. =>
    let _ ← sequence ev n.children
    return Ty.object

/-- Evaluates a node that may hold nodes to a depth of `remaining`. The probe is remembered, and at
the target evaluation stops. -/
def evaluate (task : Task) : Nat → Node → Eval Ty
  | 0, n => throw (.tooDeep n.span)
  | remaining + 1, n => do
    let t ← evaluateKind task (evaluate task remaining) n
    if task.probe = some n.index then
      modify fun flow => { flow with probed := some t }
    stopAt task n.index t
    return t

end Eval

structure Found where
  type : Ty
  scope : Snapshot
  probed : Option Ty
  /-- With the modules that the code before the target defines. -/
  world : World

structure DepthError where
  limit : Nat
  span : Span
deriving DecidableEq

def findTarget (task : Task) (w : World) (binding : Binding) (root : Node) :
    Except DepthError (Option Found) :=
  let scope : Scope := ⟨{ binding, declared := root.declaredLocals }, []⟩
  let start : Flow := { world := w, scope := scope.enter {} Eval.allLabels }
  let (outcome, flow) := (Eval.evaluate task task.maxDepth root).run.run start
  match outcome with
  | .ok _ => .ok none
  | .error (.found type) => .ok (some {
      type
      scope := flow.scope.snapshot flow.world
      probed := flow.probed
      world := flow.world })
  | .error (.tooDeep span) => .error { limit := task.maxDepth, span }

end FlowCompletion
