import FlowCompletion.Ty.Sampled

namespace FlowCompletion

def equalityDepth : Nat := 8

def sameParams (same : Ty → Ty → Bool) (a b : List (String × Ty)) : Bool :=
  a.length == b.length && a.all fun p => b.any fun q => p.1 == q.1 && same p.2 q.2

def Member.same (same : Member → Member → Bool) : Member → Member → Bool
  | .itself m, .itself n => m == n
  | .instanceOf c ps ss x, .instanceOf d qs ts y =>
    c == d && same (.instanceOf c ps ss x) (.instanceOf d qs ts y)
  | _, _ => false

namespace Ty

def sameMembers (same : Member → Member → Bool) (a b : Ty) : Bool :=
  a.members.length == b.members.length && a.members.all fun x => b.members.any fun y => same x y

/-- At the end of the depth the class alone counts. -/
def equalWithin (w : World) : Nat → Ty → Ty → Bool
  | 0 => sameMembers (Member.same fun _ _ => true)
  | depth + 1 =>
    sameMembers (Member.same fun x y => sameParams (equalWithin w depth) (x.params w) (y.params w))

def equal (w : World) (a b : Ty) : Bool := equalWithin w equalityDepth a b

end Ty

end FlowCompletion
