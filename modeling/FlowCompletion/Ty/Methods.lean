import FlowCompletion.Signature.Database
import FlowCompletion.Ty.Sampled

namespace FlowCompletion

/-- Methods declared for a module or a class. Those of its instances may be declared for any
ancestor; a declaration for the class as a value already counts for its subclasses. -/
def declaredNames (w : World) (db : Option Database) (m : ModuleId) (singleton inside : Bool) :
    List String :=
  match db with
  | none => []
  | some db =>
    let named := (w.ancestors m).filterMap fun a => (w.module a).name
    let owners := if singleton then named.take 1 else named
    (owners.flatMap fun owner => db.methods owner singleton).filterMap fun (method, visibility) =>
      if inside || !visibility.isPrivate then some method else none

namespace Ty

def memberMethods (w : World) (db : Option Database) (inside : Bool) : Member → List String
  | .itself m =>
    let o := Obj.ofModule m
    w.methods o ++ (if inside then w.privateMethods o else []) ++ declaredNames w db m true inside
  | .instanceOf cls _ samples _ =>
    let objects := sample sampleSize samples
    declaredNames w db cls false inside ++ w.instanceMethods cls ++
      (if inside then w.privateInstanceMethods cls else []) ++
      objects.flatMap w.singletonMethods ++
      (if inside then objects.flatMap w.privateSingletonMethods else [])

def methods (w : World) (db : Option Database) (t : Ty) : List String :=
  sortedNames (t.members.flatMap (memberMethods w db false))

def allMethods (w : World) (db : Option Database) (t : Ty) : List String :=
  sortedNames (t.members.flatMap (memberMethods w db true))

def constants (w : World) (t : Ty) : List String :=
  sortedNames ((t.members.filterMap Member.module?).flatMap w.constants)

end Ty

end FlowCompletion
