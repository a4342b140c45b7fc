import FlowCompletion.Resolution.Lookup

namespace FlowCompletion

abbrev TypeVars := Table String Ty

namespace Resolver

def classOfMember (w : World) : Member → Ty
  | .itself m => if w.isClass m then Ty.cls else Ty.module
  | .instanceOf cls .. => Ty.singleton cls

def instanceOfMember (w : World) : Member → Ty
  | .itself m => if w.isClass m then Ty.inst m else Ty.object
  | .instanceOf cls .. => Ty.inst cls

def readLiteral : Literal → Ty
  | .integer _ => Ty.integer
  | .float _ => Ty.float
  | .string _ => Ty.string
  | .symbol _ => Ty.symbol
  | .bool value => Ty.inst (if value then .trueClass else .falseClass)

def readAbbreviation : String → Ty
  | "int" => Ty.integer
  | "boolish" => Ty.boolean
  | "string" => Ty.string
  | _ => Ty.object

/-- A declared class with as many params as it declares; an argument left out may be anything. -/
def readClass (r : Resolver) (name : String) (args : List Ty) : Ty :=
  match r.class? name with
  | none => Ty.object
  | some cls =>
    if args.isEmpty then Ty.inst cls
    else
      let names := r.typeParams name
      Ty.instWith cls
        (names.zip (args ++ List.replicate (names.length - args.length) Ty.object))

mutual

/-- Variables are those given, or else params of the receiver. -/
def read (r : Resolver) (receiver : Ty) (vars : TypeVars) : TypeExpr → Ty
  | .self => receiver
  | .bottom => Ty.nil
  | .nil => Ty.nil
  | .any => Ty.object
  | .void => Ty.object
  | .top => Ty.object
  | .receiverClass => receiver.transform (classOfMember r.world)
  | .receiverInstance => receiver.transform (instanceOfMember r.world)
  | .bool => Ty.boolean
  | .union types => Ty.union (readAll r receiver vars types)
  | .intersection types => Ty.union (readAll r receiver vars types)
  | .proc => Ty.proc
  | .tuple types => Ty.arrayOf (readAll r receiver vars types)
  | .record _ => Ty.hashOf Ty.symbol Ty.object
  | .literal value => readLiteral value
  | .var name => (Table.get? vars name <|> receiver.param? r.world name).getD Ty.object
  | .optional inner => Ty.union [read r receiver vars inner, Ty.nil]
  | .abbreviation name => readAbbreviation name
  | .interface _ _ => Ty.object
  | .classInstance name args => r.readClass name (readAll r receiver vars args)
  | .classSingleton name => (r.class? name).elim Ty.object Ty.singleton

def readAll (r : Resolver) (receiver : Ty) (vars : TypeVars) : List TypeExpr → List Ty
  | [] => []
  | e :: rest => read r receiver vars e :: readAll r receiver vars rest

end

@[simp] theorem readAll_eq_map (r : Resolver) (receiver : Ty) (vars : TypeVars)
    (types : List TypeExpr) : readAll r receiver vars types = types.map (r.read receiver vars) := by
  induction types with
  | nil => simp [readAll]
  | cons e rest ih => simp [readAll, ih]

def methodResult (r : Resolver) (t : Ty) (name : String) : Ty :=
  Ty.union ((r.overloads t name).map fun (receiver, m) => r.read receiver [] m.function.result)

end Resolver

end FlowCompletion
