import FlowCompletion.Binary64.Reading
import FlowCompletion.Flow.Call
import FlowCompletion.Source.Locals

namespace FlowCompletion

namespace Parameters

def positionalCount (p : Parameters) : Nat :=
  p.required.length + p.optional.length + p.post.length + p.rest.toList.length

def pair (names : List String) (types : List Ty) : List (String × Ty) :=
  names.zip (types ++ List.replicate (names.length - types.length) Ty.object)

/-- Arguments go to the required parameters first. Those at the end belong to the parameters after
the rest, but with a rest parameter the optional ones come before them. -/
def assign (p : Parameters) (args : List Ty) : List (String × Ty) :=
  let required := args.take p.required.length
  let args := args.drop p.required.length
  let early := if p.rest.isSome then p.optional.length else 0
  let optional := args.take early
  let args := args.drop early
  let post := args.drop (args.length - p.post.length)
  let middle := args.take (args.length - p.post.length)
  let optional := if p.rest.isSome then optional else middle
  pair p.required required ++ pair p.optional optional ++ pair p.post post ++
    p.rest.toList.map (·, Ty.arrayOf middle) ++ p.keywords.map (·, Ty.object) ++
    p.keywordRest.toList.map (·, Ty.hashOf Ty.symbol Ty.object) ++ p.block.toList.map (·, Ty.proc)

end Parameters

namespace Node

def implicitName? (n : Node) : Option String :=
  match n.kind with
  | .varRead _ name => some name
  | .call none _ name none _ _ => some name
  | _ => none

def argumentNumber? (name : String) : Option Nat :=
  match name.toList with
  | '_' :: digits =>
    let digits := if digits.head? = some '+' then digits.drop 1 else digits
    let number := digitsValue digits
    if !digits.isEmpty && digits.all Char.isDigit && 1 ≤ number && number ≤ 9 then some number
    else none
  | _ => none

def implicitArguments (body : Option Node) (args : List Ty) : List (String × Ty) :=
  let names := (body.elim [] localNodes).filterMap implicitName?
  let highest := (names.filterMap argumentNumber?).foldl max 0
  let argument := fun i => args.getD i Ty.object
  (List.range highest).map (fun i => ("_" ++ toString (i + 1), argument i)) ++
    (if names.contains "it" then [("it", argument 0)] else [])

end Node

namespace Eval

def setAll (types : List (String × Ty)) : Eval Unit :=
  change fun s => types.foldl (fun s (name, t) => s.set name t) s

/-- A single argument for several parameters is spread over them, as far as declarations tell. -/
def spreadArgument (task : Task) (p : Parameters) (args : List Ty) : Eval (List Ty) := do
  match args with
  | [only] =>
    if 2 ≤ p.positionalCount then
      let r ← resolver task
      let (elements, others) ← splitArrays (fun t => pure (r.methodResult t "to_ary")) only
      return spread (unionOf? elements) others p.positionalCount
    else return args
  | _ => return args

def assignParameters (task : Task) (p : Parameters) (args : List Ty) : Eval Unit := do
  setAll (p.assign (← spreadArgument task p args))

end Eval

end FlowCompletion
