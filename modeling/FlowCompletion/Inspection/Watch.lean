import FlowCompletion.Ty.Equality
import FlowCompletion.Ty.Text

namespace FlowCompletion

structure Watch where
  next : Nat := 0
  asked : List Cell := []

mutual

def Ty.withCells (next : Nat) : Ty → Ty × Nat
  | .of first rest =>
    let (first, next) := first.withCells next
    let (rest, next) := Member.allWithCells next rest
    (.of first rest, next)

def Member.withCells (next : Nat) : Member → Member × Nat
  | .instanceOf cls params samples none =>
    let (params, after) := Ty.paramsWithCells (next + 1) params
    (.instanceOf cls params samples (some (.made next)), after)
  | m => (m, next)

def Member.allWithCells (next : Nat) : List Member → List Member × Nat
  | [] => ([], next)
  | m :: rest =>
    let (m, next) := m.withCells next
    let (rest, next) := Member.allWithCells next rest
    (m :: rest, next)

def Ty.paramsWithCells (next : Nat) : List (String × Ty) → List (String × Ty) × Nat
  | [] => ([], next)
  | (name, t) :: rest =>
    let (t, next) := t.withCells next
    let (rest, next) := Ty.paramsWithCells next rest
    ((name, t) :: rest, next)

end

namespace Watch

def take (t : Ty) : StateM Watch Ty := modifyGet fun watch =>
  let (t, next) := t.withCells watch.next
  (t, { watch with next })

def knows (watch : Watch) (m : Member) : Bool := m.cell?.any watch.asked.contains

def note (cells : List Cell) : StateM Watch Unit :=
  modify fun watch => { watch with asked := watch.asked ++ cells }

def noteMembers (members : List Member) : StateM Watch Unit :=
  note (members.filterMap Member.cell?)

def isAsked (t : Ty) : StateM Watch (Option Bool) :=
  return t.instance?.map (← get).knows

def params (w : World) (m : Member) : StateM Watch (List (String × Ty)) := do
  noteMembers [m]
  return m.params w

def param? (w : World) (t : Ty) (name : String) : StateM Watch (Option Ty) := do
  noteMembers t.members
  (t.param? w name).mapM take

/-- An instance is the same as itself, whatever its params. -/
def sameMember (deeper : Member → Member → StateM Watch Bool) :
    Member → Member → StateM Watch Bool
  | .itself m, .itself n => return m == n
  | .instanceOf c ps ss x, .instanceOf d qs ts y =>
    if x.isSome && x == y then return true
    else if c == d then deeper (.instanceOf c ps ss x) (.instanceOf d qs ts y)
    else return false
  | _, _ => return false

def sameMembers (same : Member → Member → StateM Watch Bool) (a b : Ty) : StateM Watch Bool :=
  if a.members.length == b.members.length then
    a.members.allM fun x => b.members.anyM fun y => same x y
  else return false

/-- Equality of types that asks for no more params than it must. -/
def equalWithin (w : World) : Nat → Ty → Ty → StateM Watch Bool
  | 0 => sameMembers (sameMember fun _ _ => return true)
  | depth + 1 =>
    sameMembers (sameMember fun x y => do
      let ps ← params w x
      let qs ← params w y
      if ps.length == qs.length then
        ps.allM fun p => qs.anyM fun q =>
          if p.1 == q.1 then equalWithin w depth p.2 q.2 else return false
      else return false)

def equal (w : World) (a b : Ty) : StateM Watch Bool := equalWithin w equalityDepth a b

def shownMembers (w : World) : Nat → Ty → List Member
  | 0, _ => []
  | depth + 1, t =>
    t.members ++ t.members.flatMap fun m => (m.params w).flatMap fun p => shownMembers w depth p.2

def text (w : World) (t : Ty) : StateM Watch String := do
  noteMembers (shownMembers w textDepth t)
  return t.text w

def isContainer (m : Member) : Bool := m.class? == some .array || m.class? == some .hash

def word? : Member → Option String
  | .itself _ => none
  | .instanceOf cls .. =>
    if cls = .nilClass then some "nil"
    else if cls = .trueClass then some "true"
    else if cls = .falseClass then some "false"
    else none

/-- The type as far as its params are known. -/
def displayWithin (w : World) : Nat → Ty → StateM Watch String
  | 0, _ => return ""
  | fuel + 1, t => do
    let texts ← t.members.mapM fun m =>
      match m, word? m with
      | .itself id, _ => return w.moduleName id ++ ".itself"
      | .instanceOf .., some word => return word
      | .instanceOf cls _ samples _, none => do
        let name := w.moduleName cls
        if isContainer m && !samples.isEmpty && !(← get).knows m then
          return name ++ "[unresolved]"
        match ← params w m with
        | [] => return name
        | params =>
          let inner ← params.mapM fun p => return p.1 ++ ": " ++ (← displayWithin w fuel p.2)
          return name ++ "[" ++ ", ".intercalate inner ++ "]"
    return " | ".intercalate (texts.mergeSort fun a b => decide (a ≤ b))

def display (w : World) (t : Ty) : StateM Watch String := do
  displayWithin w (t.height + (← get).asked.length + 2) t

end Watch

end FlowCompletion
