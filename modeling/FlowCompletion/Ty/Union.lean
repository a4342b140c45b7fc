import FlowCompletion.Ty.Basic

namespace FlowCompletion

/-- Params of several instances: each name where it is first met, with all types given for it. -/
def mergeParams (join : List Ty → Ty) (params : List (String × Ty)) : List (String × Ty) :=
  (firsts (params.map Prod.fst)).map fun name =>
    (name, join ((params.filter fun p => p.1 = name).map Prod.snd))

/-- All instances of one class as one; a single instance stays what it is. -/
def Member.merge (join : List Ty → Ty) (cls : ModuleId) : List Member → Member
  | [only] => only
  | group =>
    .instanceOf cls (mergeParams join (group.flatMap rawParams)) (group.flatMap samples) none

def Member.union (join : List Ty → Ty) (members : List Member) : List Member :=
  (firsts (members.filterMap module?)).map .itself ++
    (firsts (members.filterMap class?)).map fun cls =>
      Member.merge join cls (members.filter fun m => m.class? = some cls)

namespace Ty

def unionAt : Nat → List Ty → Ty
  | 0, types => ofMembers (Member.union (fun _ => object) (types.flatMap members))
  | height + 1, types => ofMembers (Member.union (unionAt height) (types.flatMap members))

def heights (types : List Ty) : Nat := (types.map height).foldr max 0

def union (types : List Ty) : Ty := unionAt (heights types) types

def nonnillable (t : Ty) : Ty :=
  union ((t.members.filter fun m => !m.isNil).map ofMember)

def transform (t : Ty) (f : Member → Ty) : Ty := union (t.members.map f)

def arrayOf (types : List Ty) : Ty := instWith .array [("Elem", union types)]

def hashOf (key value : Ty) : Ty := instWith .hash [("K", key), ("V", value)]

end Ty

end FlowCompletion
