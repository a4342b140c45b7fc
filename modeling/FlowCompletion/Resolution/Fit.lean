import FlowCompletion.Resolution.Reading

namespace FlowCompletion

namespace Ty

def reaches (w : World) (lower upper : List ModuleId) : Bool :=
  lower.any fun c => (w.ancestors c).any fun a => upper.contains a

/-- They share a module as a value, or classes of one inherit from classes of the other. -/
def intersects (w : World) (a b : Ty) : Bool :=
  let modules := fun (t : Ty) => t.members.filterMap Member.module?
  let classes := fun (t : Ty) => t.members.filterMap Member.class?
  (modules a).any (modules b).contains || reaches w (classes a) (classes b) ||
    reaches w (classes b) (classes a)

def ofConversion? : String → Option Ty
  | "to_s" | "to_str" => some string
  | "to_a" | "to_ary" => some array
  | "to_h" | "to_hash" => some hash
  | "to_i" | "to_int" => some integer
  | "to_f" => some float
  | "to_c" => some complex
  | "to_r" => some rational
  | _ => none

def isReaderName (name : String) : Bool :=
  match name.toList with
  | [] => false
  | c :: cs => (c.isLower || c = '_') && cs.all fun c => c.isLower || c.isDigit || c = '_'

def objectsOf : Member → List Obj
  | .itself m => [.ofModule m]
  | .instanceOf _ _ samples _ => sample sampleSize samples

/-- What a reader gives: the instance variable of its name, as far as sampled objects have it. -/
def ofReader? (w : World) (t : Ty) (name : String) : Option Ty :=
  if isReaderName name then
    let values := (t.members.flatMap objectsOf).filterMap fun o =>
      w.instanceVariable? o ("@" ++ name)
    if values.isEmpty then none else some (ofObjects w values)
  else none

end Ty

namespace Resolver

def implicitConversions : List (Ty × String) :=
  [(Ty.string, "to_str"), (Ty.integer, "to_int"), (Ty.array, "to_ary")]

def fits (r : Resolver) (receiver : Ty) (given : Ty) (expected : TypeExpr) : Bool :=
  let wanted := r.read receiver [] expected
  given.intersects r.world wanted ||
    implicitConversions.any fun (target, method) =>
      target.intersects r.world wanted && r.respondsTo given method

end Resolver

end FlowCompletion
