import FlowCompletion.Live.Builtins

namespace FlowCompletion

namespace World

def supers (w : World) (m : ModuleId) : List ModuleId :=
  (w.module m).includes.reverse ++ (w.superclass? m).toList

def visit (w : World) (m : ModuleId)
    (again : (a : ModuleId) → a ∈ w.supers m → List ModuleId → List ModuleId)
    (found : List ModuleId) : List ModuleId :=
  (w.supers m).attach.foldl (fun found a ↦ again a.1 a.2 found)
    (if m ∈ found then found else found ++ [m])

/-- Follows every way up and lists the modules that are new to it. Nothing bounds the recursion, so
that there is no return from a way that comes back to its start. -/
def walk (w : World) (found : List ModuleId) (m : ModuleId) : List ModuleId :=
  WellFounded.partialExtrinsicFix (fun a m ↦ a ∈ w.supers m) w.visit m found

/-- The modules met on the way up, again and again where several ways lead to one, to at most
`height` steps. -/
def lineage (w : World) : Nat → ModuleId → List ModuleId
  | 0, _ => []
  | height + 1, m =>
    m :: ((w.module m).includes.reverse.flatMap (lineage w height) ++
      (w.superclass? m).toList.flatMap (lineage w height))

def endsWithin (w : World) : Nat → ModuleId → Bool
  | 0, _ => false
  | height + 1, m => (w.supers m).all (endsWithin w height)

/-- What the walk lists. Where all ways up end, none of them passes a module twice, and the list is
read off the lineage; elsewhere there is only the walk, which then goes on for ever. -/
def ancestors (w : World) (m : ModuleId) : List ModuleId :=
  let height := w.modules.size + 1
  if w.endsWithin height m then firsts (w.lineage height m) else w.walk [] m

def inherits (w : World) (m other : ModuleId) : Bool :=
  (w.ancestors m).contains other

def superclasses (w : World) : Nat → ModuleId → List ModuleId
  | 0, _ => []
  | height + 1, m => m :: (w.superclass? m).toList.flatMap (superclasses w height)

def superclassChain (w : World) (m : ModuleId) : List ModuleId :=
  w.superclasses w.modules.size m

end World

end FlowCompletion
