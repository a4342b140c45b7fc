import FlowCompletion.Resolution.Overload
import FlowCompletion.Resolution.Unify

namespace FlowCompletion

namespace Resolver

mutual

/-- Whether reading a declared type gets to a variable that only the receiver can know. -/
def asksReceiver (r : Resolver) (vars : TypeVars) : TypeExpr → Bool
  | .var name => (Table.get? vars name).isNone
  | .union types => asksReceiverAmong r vars types.length types
  | .intersection types => asksReceiverAmong r vars types.length types
  | .tuple types => asksReceiverAmong r vars types.length types
  | .optional inner => asksReceiver r vars inner
  | .classInstance name args =>
    (r.class? name).isSome && asksReceiverAmong r vars (r.typeParams name).length args
  | _ => false

def asksReceiverAmong (r : Resolver) (vars : TypeVars) (count : Nat) : List TypeExpr → Bool
  | [] => false
  | e :: rest =>
    match count with
    | 0 => false
    | count + 1 => asksReceiver r vars e || asksReceiverAmong r vars count rest

end

def askedByRead (r : Resolver) (receiver : Ty) (vars : TypeVars) (e : TypeExpr) : List Member :=
  if r.asksReceiver vars e then receiver.members else []

def askedByResult (r : Resolver) (t : Ty) (name : String) : List Member :=
  (r.overloads t name).flatMap fun (receiver, m) => r.askedByRead receiver [] m.function.result

def askedByResolve (r : Resolver) (t : Ty) (name : String) (args : CallArguments) : List Member :=
  (r.overloads t name).flatMap fun (receiver, m) =>
    (r.matchOf args receiver m).expected.flatMap (r.askedByRead receiver [])

def askedByInterface (r : Resolver) (deeper : TypeExpr → Ty → List Member) (name : String)
    (args : List TypeExpr) (value : Ty) : List Member :=
  match r.database.bind (·.interface? name) with
  | none => []
  | some interface =>
    if ((interface.typeParams.zip args).filterMap fun (_, arg) => genericVar? arg).isEmpty then []
    else interface.methods.flatMap fun (method, d) =>
      r.askedByResult value method ++
        d.overloads.flatMap fun m => deeper m.function.result (r.methodResult value method)

mutual

def askedByUnifyWith (r : Resolver) (inside : String → List TypeExpr → Ty → List Member) :
    TypeExpr → Ty → List Member
  | .classInstance name args, value =>
    match r.database, value.instance? with
    | some db, some m => askedByArgs r inside (db.typeParams name) args m
    | _, _ => []
  | .tuple types, value =>
    if value.isInstanceOf .array then
      value.members ++
        (match value.param? r.world "Elem" with
          | some elem => askedByAll r inside types elem
          | none => [])
    else []
  | .interface name args, value => inside name args value
  | _, _ => []

def askedByArgs (r : Resolver) (inside : String → List TypeExpr → Ty → List Member)
    (params : List String) : List TypeExpr → Member → List Member
  | [], _ => []
  | arg :: rest, m =>
    match params with
    | [] => []
    | param :: params =>
      m :: (match m.param? r.world param with
        | some t => askedByUnifyWith r inside arg t
        | none => []) ++ askedByArgs r inside params rest m

def askedByAll (r : Resolver) (inside : String → List TypeExpr → Ty → List Member) :
    List TypeExpr → Ty → List Member
  | [], _ => []
  | e :: rest, value => askedByUnifyWith r inside e value ++ askedByAll r inside rest value

end

def askedByUnifyAt (r : Resolver) : Nat → TypeExpr → Ty → List Member
  | 0 => r.askedByUnifyWith fun _ _ _ => []
  | depth + 1 => r.askedByUnifyWith (r.askedByInterface (askedByUnifyAt r depth))

def askedByUnify (r : Resolver) (exprs : List TypeExpr) (values : List Ty) : List Member :=
  (exprs.zip values).flatMap fun (e, t) => r.askedByUnifyAt interfaceDepth e t

end Resolver

end FlowCompletion
