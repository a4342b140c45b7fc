import FlowCompletion.Resolution.Fit

namespace FlowCompletion

structure Score where
  points : Nat
  hits : Nat := 0
  tries : Nat := 1
deriving DecidableEq, Inhabited

namespace Score

def numerator (s : Score) : Nat := s.points * s.tries + s.hits

def le (a b : Score) : Bool := a.numerator * b.tries ≤ b.numerator * a.tries

def text (s : Score) : String :=
  let millionths := roundedQuotient (s.numerator * 1000000) s.tries
  let places := toString (millionths % 1000000)
  toString (millionths / 1000000) ++ "." ++ "".pushn '0' (6 - places.length) ++ places

end Score

structure MethodMatch where
  method : MethodType
  receiver : Ty
  given : List Ty
  expected : List TypeExpr
  score : Score

structure CallArguments where
  positional : List (Option Ty) := []
  keywords : List (String × Ty) := []
  hasBlock : Bool := false

namespace FunctionType

def admits (f : FunctionType) (count : Nat) : Bool :=
  f.required.length + f.trailing.length ≤ count &&
    (f.rest.isSome || count ≤ f.required.length + f.optional.length + f.trailing.length)

/-- Each argument with its parameter. Required and trailing parameters are filled first, then the
optional ones; what is left goes to the rest parameter as one. -/
def align (f : FunctionType) (args : List Ty) : List Ty × List TypeExpr :=
  let first := args.take f.required.length
  let last := args.drop (args.length - f.trailing.length)
  let middle := (args.take (args.length - f.trailing.length)).drop f.required.length
  let taken := min middle.length f.optional.length
  (first ++ middle.take taken ++ last ++ f.rest.toList.map (fun _ => Ty.union (middle.drop taken)),
    f.required ++ f.optional.take taken ++ f.trailing ++ f.rest.toList)

end FunctionType

namespace Resolver

def positionalFor (f : FunctionType) (args : CallArguments) : List (Option Ty) :=
  if args.keywords.isEmpty || f.acceptsKeywords then args.positional
  else args.positional ++ [some (Ty.hashOf Ty.symbol (Ty.union (args.keywords.map Prod.snd)))]

def hasSplat (args : CallArguments) : Bool := args.positional.any Option.isNone

/-- Two points for a block where one is taken, two for the right number of arguments, and part of a
point for those that fit. After a splat there is one point if the known arguments are not too
many. -/
def matchOf (r : Resolver) (args : CallArguments) (receiver : Ty) (m : MethodType) : MethodMatch :=
  let f := m.function
  let positional := positionalFor f args
  let known := positional.filterMap id
  let points := if m.block.isSome = args.hasBlock then 2 else 0
  let unaligned := fun more =>
    { method := m, receiver, given := [], expected := [], score := ⟨points + more, 0, 1⟩ }
  if hasSplat args then
    unaligned
      (if known.length ≤ f.required.length + f.optional.length + f.trailing.length then 1 else 0)
  else if f.admits known.length then
    let (given, expected) := f.align known
    let hits := (given.zip expected).countP fun (t, e) => r.fits receiver t e
    { method := m, receiver, given, expected, score := ⟨points + 2, hits, max 1 given.length⟩ }
  else unaligned 0

def resolveMethod (r : Resolver) (t : Ty) (name : String) (args : CallArguments) :
    List MethodMatch :=
  let all := (r.overloads t name).map fun (receiver, m) => r.matchOf args receiver m
  all.filter fun m => all.all fun other => other.score.le m.score

end Resolver

end FlowCompletion
