import FlowCompletion.Completion.Analysis
import FlowCompletion.Settings
import FlowCompletion.Source.Layout

namespace FlowCompletion

structure Request where
  world : World
  binding : Binding
  database : Option Database
  settings : Settings
  root : Node
  offset : Nat

abbrev Answer (α : Type) := OptionT (Except AnalysisError) α

structure CallSite where
  receiver : Option Node
  name : String
  arguments : List Node

/-- The call that a node is an argument of, by the path to the node from the inside. -/
def CallSite.ofParents? : List Node → Option CallSite
  | arguments :: call :: _ =>
    match call.kind, arguments.kind with
    | .call receiver _ name _ _ _, .arguments items => some ⟨receiver, name, items⟩
    | _, _ => none
  | _ => none

namespace Request

def analysis (r : Request) (target : Target) : Analysis :=
  { target, world := r.world, database := r.database }

def found (r : Request) (f : Found) (target : Target) : Analysis :=
  { target, scope := some f.scope, world := f.world, database := r.database }

def evaluate (r : Request) (path : List Node) (n : Node) (probe : Option Node) : Answer Found :=
  let task : Task := {
    database := r.database
    binding := some r.binding
    dig := path.map Node.index
    target := n.index
    probe := probe.map Node.index
    maxDepth := r.settings.maxDepth }
  OptionT.mk ((findTarget task r.world r.binding r.root).mapError .tooDeep)

def requireRoots (r : Request) (method : String) : List String :=
  if method = "require_relative" then [(relativeRoot r.binding.sourceFile).getD "."]
  else r.settings.loadPaths

def completeText (r : Request) (site : Option CallSite) (content : String) : Answer Analysis :=
  match site with
  | some ⟨none, method, [_]⟩ =>
    if method = "require" ∨ method = "require_relative" then
      pure { r.analysis (.require method content) with roots := r.requireRoots method }
    else failure
  | _ => failure

/-- A name alone; among arguments the receiver of the call is probed for its keywords. -/
def completeName (r : Request) (path : List Node) (n : Node) (site : Option CallSite)
    (name : String) : Answer Analysis := do
  let f ← r.evaluate path n (site.bind CallSite.receiver)
  let keywordOf := site.bind fun s =>
    match s.receiver with
    | some _ => f.probed.map (·, s.name)
    | none => some (f.scope.selfType, s.name)
  return r.found f (.localOrMethod name keywordOf)

def completeCall (r : Request) (path : List Node) (receiver : Node)
    (operator : Option CallOperator) (name : String) : Answer Analysis := do
  let f ← r.evaluate path receiver none
  let onSelf := match receiver.kind with
    | .self => true
    | _ => false
  return r.found f <|
    match operator with
    | some .doubleColon => .callOrConstant name f.type onSelf
    | some .safeNav => .call name f.type.nonnillable onSelf
    | _ => .call name f.type onSelf

def completeSymbol (r : Request) (path : List Node) (n : Node) (parent : Option Node)
    (name : String) : Answer Analysis := do
  if parent.any Node.isBlockArgument then
    let f ← r.evaluate path n none
    return r.found f (.call name f.type false)
  else if name.isEmpty then failure
  else return r.analysis (.symbol name)

def completeVariable (r : Request) (path : List Node) (n : Node) (site : Option CallSite)
    (var : VarKind) (name : String) : Answer Analysis := do
  let complete := fun (target : Target) => do
    let f ← r.evaluate path n none
    return r.found f target
  match var with
  | .lvar => r.completeName path n site name
  | .ivar => complete (.ivar name)
  | .cvar => complete (.cvar name)
  | .gvar => complete (.gvar name)

/-- The owner of a constant is evaluated by itself, before the constant. -/
def completeConstant (r : Request) (path : List Node) (n : Node) (owner : Answer (Option Ty))
    (name : String) : Answer Analysis := do
  let owner ← owner
  let f ← r.evaluate path n none
  return r.found f (.constant name owner)

def complete (r : Request) (path : List Node) (n : Node) (parents : List Node) :
    Answer Analysis :=
  let site := CallSite.ofParents? parents
  match n.kind with
  | .string content false => r.completeText site content
  | .symbol name false => r.completeSymbol path n parents.head? name
  | .call none _ name _ _ false => r.completeName path n site name
  | .call (some receiver) operator name _ _ false => r.completeCall path receiver operator name
  | .varRead var name | .varTarget var name => r.completeVariable path n site var name
  | .constRead name | .constTarget name => r.completeConstant path n (pure none) name
  | .constPath none name => r.completeConstant path n (pure (some (Ty.singleton .object))) name
  | .constPath (some parent) name =>
    r.completeConstant path n (do return some (← r.evaluate path parent none).type) name
  | _ => failure

def answer (r : Request) : Except AnalysisError (Option Analysis) :=
  if r.root.span.stop < r.offset then .error (.outOfRange r.offset r.root.span.stop)
  else
    match r.root.locate r.offset with
    | none => .ok none
    | some path =>
      match path.reverse with
      | [] => .ok none
      | n :: parents => (r.complete path n parents).run

end Request

end FlowCompletion
