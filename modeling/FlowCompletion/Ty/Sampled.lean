import FlowCompletion.Live.Methods
import FlowCompletion.Sampling
import FlowCompletion.Ty.Union

namespace FlowCompletion

namespace Ty

def ofObject (w : World) (o : Obj) : Ty :=
  match o with
  | .ofModule m => singleton m
  | .ofInstance _ =>
    match w.payload o with
    | .array _ => seen .array [o]
    | .hash _ => seen .hash [o]
    | _ => seen (w.classOf o) [o]

def moduleOf? : Obj → Option ModuleId
  | .ofModule m => some m
  | .ofInstance _ => none

/-- A bounded part of the objects, grouped by class. -/
def ofObjects (w : World) (objects : List Obj) : Ty :=
  let picked := sample sampleSize objects
  let modules := firsts (picked.filterMap moduleOf?)
  let instances := picked.filter fun o => (moduleOf? o).isNone
  let classes := firsts (instances.map w.classOf)
  union ((classes.map fun c => seen c (instances.filter fun o => w.classOf o = c)) ++
    modules.map singleton)

def watch (parent : Cell) (param : String) (t : Ty) : Ty :=
  ofMembers (t.members.map fun
    | .instanceOf cls params samples none =>
      .instanceOf cls params samples (some (.derived parent param cls))
    | m => m)

end Ty

namespace Member

/-- What the samples of an array or a hash say about its params. -/
def sampledParams (w : World) (m : Member) : List (String × Ty) :=
  if m.samples.isEmpty then []
  else if m.class? = some .array then
    let items := (m.samples.filterMap w.arrayItems?).flatMap (sample sampleSize)
    [("Elem", Ty.ofObjects w items)]
  else if m.class? = some .hash then
    let pairs := (m.samples.filterMap w.hashPairs?).flatMap (sample sampleSize)
    [("K", Ty.ofObjects w (pairs.map Prod.fst)), ("V", Ty.ofObjects w (pairs.map Prod.snd))]
  else []

def addParam (params : List (String × Ty)) (name : String) (t : Ty) : List (String × Ty) :=
  match params with
  | [] => [(name, t)]
  | (other, known) :: rest =>
    if other = name then (other, Ty.union [known, t]) :: rest
    else (other, known) :: addParam rest name t

def params (w : World) (m : Member) : List (String × Ty) :=
  (m.sampledParams w).foldl (fun all (name, t) =>
    (addParam all name t).map fun (n, u) =>
      match m.cell? with
      | some cell => if n = name then (n, u.watch cell name) else (n, u)
      | none => (n, u)) m.rawParams

def param? (w : World) (m : Member) (name : String) : Option Ty :=
  List.lookup name (m.params w)

end Member

def Ty.param? (w : World) (t : Ty) (name : String) : Option Ty :=
  match t with
  | .of m [] => m.param? w name
  | .of first rest =>
    match (first :: rest).filterMap fun m => m.param? w name with
    | [] => none
    | found => some (Ty.union found)

end FlowCompletion
