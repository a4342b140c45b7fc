import FlowCompletion.Flow.Call

namespace FlowCompletion

/-- Values for targets, one each. The first splat among the targets takes an array of the values
that those before and after it leave; where values are missing they are `nil`. -/
def distribute (targets : List Node) (values : List Ty) : List Ty :=
  let valueAt := fun i => values.getD i Ty.nil
  match targets.findIdx? Node.isSplat with
  | none => (List.range targets.length).map valueAt
  | some splat =>
    let after := targets.length - splat - 1
    let stop := max (values.length - after) splat
    (List.range splat).map valueAt ++
      [Ty.arrayOf ((values.take stop).drop splat)] ++
      (List.range after).map fun i => valueAt (stop + i)

namespace Eval

mutual

def assign (task : Task) (ev : Node → Eval Ty) : Node → Ty → Eval Unit
  | .mk _ _ kind, value => assignKind task ev kind value

def assignKind (task : Task) (ev : Node → Eval Ty) : NodeKind → Ty → Eval Unit
  | .varTarget _ name, value => change (·.set name value)
  | .constTarget name, value => do
    let owner ← constantOwner
    let w ← world
    change (·.setConstant w owner name value)
  | .splat inner, value => assignOptional task ev inner (Ty.arrayOf [value])
  | .multiWrite targets _, value => do
    let values ← spreadValue task value targets.length
    assignEach task ev false targets (distribute targets values)
  | .call (some receiver) _ _ _ _ _, _ => do let _ ← ev receiver
  | _, _ => pure ()

def assignOptional (task : Task) (ev : Node → Eval Ty) : Option Node → Ty → Eval Unit
  | none, _ => pure ()
  | some n, value => assign task ev n value

def assignEach (task : Task) (ev : Node → Eval Ty) (splatSeen : Bool) :
    List Node → List Ty → Eval Unit
  | .mk _ _ (.splat inner) :: rest, value :: values => do
    assignOptional task ev inner (if splatSeen then Ty.arrayOf [value] else value)
    assignEach task ev true rest values
  | .mk span index kind :: rest, value :: values => do
    assign task ev (.mk span index kind) value
    assignEach task ev splatSeen rest values
  | _, _ => pure ()

end

def assignAll (task : Task) (ev : Node → Eval Ty) (targets : List Node) (values : List Ty) :
    Eval Unit :=
  assignEach task ev false targets (distribute targets values)

end Eval

end FlowCompletion
