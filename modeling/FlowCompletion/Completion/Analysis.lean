import FlowCompletion.Completion.Error
import FlowCompletion.Files.Features
import FlowCompletion.Ty.Methods

namespace FlowCompletion

/-- Every target has what is typed of its name so far. -/
inductive Target where
  | require (method path : String)
  | symbol (name : String)
  /-- On `self` itself also private methods can be called. -/
  | call (name : String) (receiver : Ty) (onSelf : Bool)
  | callOrConstant (name : String) (receiver : Ty) (onSelf : Bool)
  /-- A name alone. Among the arguments of a call it may become one of the keywords of the method
  that is called on the given type. -/
  | localOrMethod (name : String) (keywordOf : Option (Ty × String))
  | constant (name : String) (owner : Option Ty)
  | gvar (name : String)
  | ivar (name : String)
  | cvar (name : String)

def Target.typed : Target → String
  | require _ path => path
  | symbol name | call name _ _ | callOrConstant name _ _ | localOrMethod name _
  | constant name _ | gvar name | ivar name | cvar name => name

structure Analysis where
  target : Target
  scope : Option Snapshot := none
  world : World
  database : Option Database
  roots : List String := []

namespace Analysis

def methodNames (a : Analysis) (receiver : Ty) (onSelf : Bool) : List String :=
  if onSelf then receiver.allMethods a.world a.database else receiver.methods a.world a.database

def keywordNames (a : Analysis) (receiver : Ty) (method : String) : List String :=
  let r : Resolver := { world := a.world, database := a.database }
  (r.keywordNames receiver method).map (· ++ ":")

def scopeNames (a : Analysis) (f : Snapshot → List String) : List String :=
  a.scope.elim [] f

def names (files : FileSystem) (a : Analysis) : List String :=
  match a.target with
  | .require _ path => files.completions a.roots path
  | .symbol _ => []
  | .call _ receiver onSelf => a.methodNames receiver onSelf
  | .callOrConstant _ receiver onSelf =>
    a.methodNames receiver onSelf ++ receiver.constants a.world
  | .localOrMethod _ keywordOf =>
    a.scopeNames (fun s => s.locals ++ s.selfType.allMethods a.world a.database) ++
      keywordOf.elim [] fun (receiver, method) => a.keywordNames receiver method
  | .constant _ (some owner) => owner.constants a.world
  | .constant _ none => a.scopeNames Snapshot.constants
  | .gvar _ => a.scopeNames Snapshot.gvars
  | .ivar _ => a.scopeNames Snapshot.ivars
  | .cvar _ => a.scopeNames Snapshot.cvars

def candidates (files : FileSystem) (a : Analysis) : List String :=
  sortedNames ((a.names files).filter fun name => a.target.typed.toList.isPrefixOf name.toList)

end Analysis

end FlowCompletion
