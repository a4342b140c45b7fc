import FlowCompletion.Flow.Call

namespace FlowCompletion

namespace Eval

def itemTypes (task : Task) (ev : Node → Eval Ty) (item : Node) : Eval (List Ty) := do
  match item.kind with
  | .splat none => return []
  | .splat (some inner) =>
    let value ← ev inner
    let (element, other) ← partitionArrays task value.nonnillable "to_a"
    return element.toList ++ other.toList
  | _ => return [← ev item]

def elementType (task : Task) (ev : Node → Eval Ty) (items : List Node) : Eval Ty := do
  return Ty.union (← items.mapM (itemTypes task ev)).flatten

def pairTypes (task : Task) (ev : Node → Eval Ty) (item : Node) : Eval (List Ty × List Ty) := do
  match item.kind with
  | .assoc key value =>
    let key ← ev key
    let value ← ev value
    return ([key], [value])
  | .assocSplat none => return ([], [])
  | .assocSplat (some inner) =>
    let value ← ev inner
    let hash ← convert task value "to_hash"
    let w ← world
    return ((hash.param? w "K").toList, (hash.param? w "V").toList)
  | _ =>
    let _ ← ev item
    return ([], [])

def hashType (task : Task) (ev : Node → Eval Ty) (items : List Node) : Eval Ty := do
  let pairs ← items.mapM (pairTypes task ev)
  let keys := pairs.flatMap Prod.fst
  let values := pairs.flatMap Prod.snd
  if keys.isEmpty && values.isEmpty then return Ty.hash
  return Ty.hashOf (Ty.union keys) (Ty.union values)

def jumpValue (task : Task) (ev : Node → Eval Ty) (value : Option Node) : Eval Ty := do
  match value with
  | none => return Ty.nil
  | some n =>
    match n.kind with
    | .arguments [only] =>
      if only.isSplat then return Ty.arrayOf [← elementType task ev [only]] else ev only
    | .arguments items => return Ty.arrayOf [← elementType task ev items]
    | _ => ev n

end Eval

end FlowCompletion
