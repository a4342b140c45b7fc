import FlowCompletion.Live.Binding
import FlowCompletion.Signature.Database
import FlowCompletion.Ty.Sampled

namespace FlowCompletion

/-- What names in signatures are looked up in. Without a binding only built-in constants count. -/
structure Resolver where
  world : World
  database : Option Database := none
  binding : Option Binding := none

def splitPath : List Char → List (List Char)
  | [] => [[]]
  | ':' :: ':' :: cs => [] :: splitPath cs
  | c :: cs =>
    match splitPath cs with
    | [] => [[c]]
    | name :: rest => (c :: name) :: rest

/-- Colons in front of a path say that it is complete, as all paths here are. -/
def trimColons : List Char → List Char
  | ':' :: ':' :: cs => trimColons cs
  | cs => cs

namespace Resolver

def constant? (r : Resolver) (name : String) : Option Obj :=
  match r.binding with
  | some b => b.constant? r.world name
  | none => r.world.constant? .object name

def constantIn? (w : World) (o : Obj) : List String → Option ModuleId
  | [] => Ty.moduleOf? o
  | name :: rest => do
    let inner ← w.constant? (← Ty.moduleOf? o) name
    constantIn? w inner rest

def class? (r : Resolver) (path : String) : Option ModuleId :=
  match (splitPath (trimColons path.toList)).map String.ofList with
  | [] => none
  | first :: rest => do constantIn? r.world (← r.constant? first) rest

/-- The first declaration along the live ancestors. A module as a value also has the methods that
instances of `Class` or `Module` have. -/
def findMethod (r : Resolver) (m : ModuleId) (name : String) (singleton : Bool) :
    Option MethodDef := do
  let db ← r.database
  let owners := (r.world.ancestors m).filterMap fun a => (r.world.module a).name
  let found := owners.findSome? fun owner => db.lookup owner name singleton
  let metaclass := if r.world.isClass m then "Class" else "Module"
  if singleton then found <|> db.lookup metaclass name false else found

def ownerOf : Member → ModuleId × Bool
  | .itself m => (m, true)
  | .instanceOf cls .. => (cls, false)

def methodOf (r : Resolver) (m : Member) (name : String) : Option MethodDef :=
  r.findMethod (ownerOf m).1 name (ownerOf m).2

def overloads (r : Resolver) (t : Ty) (name : String) : List (Ty × MethodType) :=
  t.members.flatMap fun m =>
    ((r.methodOf m name).elim [] MethodDef.overloads).map (Ty.ofMember m, ·)

def typeParams (r : Resolver) (name : String) : List String :=
  r.database.elim [] (·.typeParams name)

def keywordNames (r : Resolver) (t : Ty) (name : String) : List String :=
  sortedNames ((r.overloads t name).flatMap fun (_, m) =>
    m.function.requiredKeywords.map Prod.fst ++ m.function.optionalKeywords.map Prod.fst)

def respondsTo (r : Resolver) (t : Ty) (name : String) : Bool :=
  t.members.any fun m =>
    (match m with
      | .itself id => (r.world.methods (.ofModule id)).contains name
      | .instanceOf cls .. => (r.world.methodVisibility? cls name).any fun v => !v.isPrivate) ||
    (r.methodOf m name).isSome

end Resolver

end FlowCompletion
