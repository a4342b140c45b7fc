import FlowCompletion.Resolution.Reading

namespace FlowCompletion

def interfaceDepth : Nat := 4

def firstEntries {α : Type} : List (String × α) → List (String × α)
  | [] => []
  | entry :: rest => entry :: (firstEntries rest).filter fun other => other.1 ≠ entry.1

def genericVar? : TypeExpr → Option String
  | .var name => some name
  | _ => none

namespace Resolver

/-- What the results of its methods say about the variables that an interface is given. -/
def unifyInterface (r : Resolver)
    (unify : List String → TypeExpr → Ty → List (String × Ty)) (name : String)
    (args : List TypeExpr) (value : Ty) : List (String × Ty) :=
  match r.database.bind (·.interface? name) with
  | none => []
  | some interface =>
    let convert := (interface.typeParams.zip args).filterMap fun (param, arg) =>
      (genericVar? arg).map (param, ·)
    if convert.isEmpty then []
    else
      let inner := interface.methods.flatMap fun (method, d) =>
        let result := r.methodResult value method
        d.overloads.flatMap fun m => unify (convert.map Prod.fst) m.function.result result
      (firstEntries convert).flatMap fun (param, name) =>
        (inner.filter fun found => found.1 = param).map fun found => (name, found.2)

mutual

/-- Every type found for each of the variables, in order; `inside` looks into interfaces. -/
def unifyWith (r : Resolver) (inside : String → List TypeExpr → Ty → List (String × Ty))
    (vars : List String) : TypeExpr → Ty → List (String × Ty)
  | .var name, value => if name ∈ vars then [(name, value)] else []
  | .classInstance name args, value =>
    match r.database, value.instance? with
    | some db, some m => unifyArgs r inside vars (db.typeParams name) args m
    | _, _ => []
  | .tuple types, value =>
    if value.isInstanceOf .array then
      match value.param? r.world "Elem" with
      | some elem => unifyAll r inside vars types elem
      | none => []
    else []
  | .interface name args, value => inside name args value
  | _, _ => []

def unifyArgs (r : Resolver) (inside : String → List TypeExpr → Ty → List (String × Ty))
    (vars : List String) (params : List String) : List TypeExpr → Member → List (String × Ty)
  | [], _ => []
  | arg :: rest, m =>
    match params with
    | [] => []
    | param :: params =>
      (match m.param? r.world param with
        | some t => unifyWith r inside vars arg t
        | none => []) ++ unifyArgs r inside vars params rest m

def unifyAll (r : Resolver) (inside : String → List TypeExpr → Ty → List (String × Ty))
    (vars : List String) : List TypeExpr → Ty → List (String × Ty)
  | [], _ => []
  | e :: rest, value => unifyWith r inside vars e value ++ unifyAll r inside vars rest value

end

def unifyAt (r : Resolver) : Nat → List String → TypeExpr → Ty → List (String × Ty)
  | 0 => r.unifyWith fun _ _ _ => []
  | depth + 1 => r.unifyWith (r.unifyInterface (unifyAt r depth))

def unify (r : Resolver) (vars : List String) (exprs : List TypeExpr) (values : List Ty) :
    TypeVars :=
  mergeParams Ty.union ((exprs.zip values).flatMap fun (e, t) => r.unifyAt interfaceDepth vars e t)

end Resolver

end FlowCompletion
