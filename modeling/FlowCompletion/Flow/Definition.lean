import FlowCompletion.Flow.Parameters
import FlowCompletion.Live.Construction

namespace FlowCompletion

namespace Eval

def bodyToDig (task : Task) (body : Option Node) : Option Node :=
  body.filter fun n => task.dig.contains n.index

def receiverOf (w : World) : Member → Ty
  | .itself m => if w.isClass m then Ty.inst m else Ty.singleton m
  | m => Ty.ofMember m

/-- The body of a method, in a frame that sees no variables further out. It may not be run. -/
def methodBody (task : Task) (ev : Node → Eval Ty) (n : Node) (params : Parameters)
    (receiver : Ty) (body : Option Node) : Eval Unit := do
  match body with
  | none => pure ()
  | some body =>
    let frame : Frame := { selfType := receiver, tracesLocals := false, tracesIvars := false }
    let _ ← nested frame (unwritten n.declaredLocals ++ allLabels) do
      assignParameters task params []
      let _ ← conditional (ev body)
      mergeJumps

def evaluateMethodDef (task : Task) (ev : Node → Eval Ty) (n : Node) (receiver : Option Node)
    (params : Parameters) (body : Option Node) : Eval Ty := do
  let w ← world
  let receiver ← match receiver with
    | some n => ev n
    | none => (·.transform (receiverOf w)) <$> selfType
  methodBody task ev n params receiver (bodyToDig task body)
  return Ty.symbol

/-- Where a class or module is defined, and by which name. -/
def definitionPlace (ev : Node → Eval Ty) (path : Node) : Eval (Option (ModuleId × String)) := do
  match path.kind with
  | .constRead name => return some (← constantOwner, name)
  | .constPath (some parent) name => return (← ev parent).singleton?.map (·, name)
  | .constPath none name => return some (.object, name)
  | _ =>
    let _ ← ev path
    return none

def qualifiedName (w : World) (owner : ModuleId) (name : String) : String :=
  match (w.module owner).name with
  | some outer => if owner = .object then name else outer ++ "::" ++ name
  | none => name

def defineModule (owner : ModuleId) (name : String) (isClass : Bool)
    (superclass : Option ModuleId) : Eval ModuleId := do
  let w ← world
  let fullName := some (qualifiedName w owner name)
  let (w, m) := if isClass then w.addClass fullName (some (superclass.getD .object))
    else w.addMixin fullName
  modify fun flow =>
    { flow with world := w, scope := flow.scope.setConstant w owner name (Ty.singleton m) }
  return m

def superclassOf (ev : Node → Eval Ty) (superclass : Option Node) : Eval (Option ModuleId) := do
  match superclass with
  | none => return none
  | some n =>
    let t ← ev n
    let w ← world
    return t.singleton?.filter w.isClass

/-- A module that is known and of the right kind is opened again. -/
def openModule (owner : ModuleId) (name : String) (isClass : Bool) (superclass : Option ModuleId)
    (known : Ty) : Eval ModuleId := do
  let w ← world
  match known.singleton?.filter fun m => w.isClass m = isClass with
  | some m => pure m
  | none => defineModule owner name isClass superclass

def moduleBody (ev : Node → Eval Ty) (m : ModuleId) (body : Option Node) : Eval Ty := do
  match body with
  | none => return Ty.nil
  | some body =>
    let frame : Frame :=
      { selfType := Ty.singleton m, nesting := m, tracesLocals := false, tracesIvars := false }
    return (← nested frame (unwritten body.declaredLocals) (ev body)).1

def evaluateModuleDef (task : Task) (ev : Node → Eval Ty) (path : Node) (superclass : Option Node)
    (body : Option Node) (isClass : Bool) : Eval Ty := do
  match ← definitionPlace ev path with
  | none => return Ty.nil
  | some (owner, name) =>
    let known ← ev path
    let superclass ← superclassOf ev superclass
    let m ← openModule owner name isClass superclass known
    moduleBody ev m (bodyToDig task body)

end Eval

end FlowCompletion
