import FlowCompletion.Resolution.Overload
import FlowCompletion.Resolution.Unify
import FlowCompletion.Scope.Flow
import FlowCompletion.Source.Node

namespace FlowCompletion

/-- What is looked for. Nodes are given by their numbers. -/
structure Task where
  database : Option Database := none
  binding : Option Binding := none
  dig : List Nat := []
  target : Nat
  /-- Another node whose type is to be remembered. -/
  probe : Option Nat := none
  maxDepth : Nat

structure Flow where
  world : World
  scope : Scope
  probed : Option Ty := none

inductive Halt where
  | found (t : Ty)
  | tooDeep (span : Span)

abbrev Eval := ExceptT Halt (StateM Flow)

namespace Eval

def world : Eval World := return (← get).world

def scope : Eval Scope := return (← get).scope

def change (f : Scope → Scope) : Eval Unit := modify fun flow => { flow with scope := f flow.scope }

/-- A name without a type is `nil`. -/
def read (name : String) : Eval Ty := return ((← scope).get? (← world) name).getD Ty.nil

def selfType : Eval Ty := return (← scope).selfType (← world)

def resolver (task : Task) : Eval Resolver :=
  return { world := ← world, database := task.database, binding := task.binding }

def inFrame {α : Type} (frame : Frame) (declared : List (String × Option Ty)) (body : Eval α) :
    Eval (α × Frame) := do
  change (·.enter frame declared)
  let a ← body
  let (left, outer) := (← scope).leave
  change fun _ => outer
  return (a, left)

def nested {α : Type} (frame : Frame) (declared : List (String × Option Ty)) (body : Eval α) :
    Eval (α × Frame) := do
  let (a, left) ← inFrame frame declared body
  change (·.update left.changes)
  return (a, left)

/-- Runs all branches from the same point, and gives the results of those that control gets
through. -/
def branches {α : Type} (bodies : List (Eval α)) : Eval (List α) := do
  let runs ← bodies.mapM (inFrame {} [])
  let w ← world
  change (·.joinBranches w (runs.map Prod.snd))
  return (runs.filter fun run => !run.2.terminated).map Prod.fst

def conditional {α : Type} (body : Eval α) : Eval (Option α) := do
  let results ← branches [some <$> body, pure none]
  return results.findSome? id

def mergeJumps : Eval Unit := do
  let w ← world
  change (·.mergeJumps w)

def labels (names : List String) : List (String × Option Ty) := names.map (·, none)

def allLabels : List (String × Option Ty) := labels [Label.toBreak, Label.toNext, Label.toReturn]

def loopLabels : List (String × Option Ty) := labels [Label.toBreak, Label.toNext]

def unwritten (names : List String) : List (String × Option Ty) := names.map (·, some Ty.nil)

def optional (ev : Node → Eval Ty) (n : Option Node) : Eval Ty :=
  n.elim (pure Ty.nil) ev

def constantOwner : Eval ModuleId := return (← scope).innermostModule

end Eval

end FlowCompletion
