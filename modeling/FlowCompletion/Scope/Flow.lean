import FlowCompletion.Scope.Views

namespace FlowCompletion

namespace Scope

def modifyFrame (s : Scope) (f : Frame → Frame) : Scope :=
  match s.frames with
  | [] => s
  | frame :: rest => { s with frames := f frame :: rest }

def setEntry (s : Scope) (key : Key) (entry : Entry) : Scope :=
  s.modifyFrame fun f => { f with table := Table.insert f.table key entry }

def setKey (s : Scope) (key : Key) (value : Option Ty) : Scope :=
  s.setEntry key ⟨s.levelOf key, value⟩

def set (s : Scope) (name : String) (t : Ty) : Scope := s.setKey (.named name) (some t)

def setConstant (s : Scope) (w : World) (m : ModuleId) (name : String) (t : Ty) : Scope :=
  s.setEntry (w.constantKey m name) ⟨0, some t⟩

def enter (s : Scope) (frame : Frame) (declared : List (String × Option Ty)) : Scope :=
  let level := s.level + 1
  let table := Table.ofList
    (declared.map fun (name, value) => (Key.named name, Entry.mk level value))
  { s with frames :=
      { frame with table, frozen := none, jumps := [], terminated := false } :: s.frames }

def leave (s : Scope) : Frame × Scope := (s.frames.headD {}, s.outer)

/-- Takes changes over as if they were made here, one after the other. -/
def update (s : Scope) (changes : Changes) : Scope :=
  changes.foldl (fun s (key, entry) =>
    if entry.level ≤ s.level then s.setKey key entry.value else s) s

/-- What a name may be after one of the branches: its type in every branch that writes it, and the
type from before if a branch does not. -/
def mergedValue (s : Scope) (w : World) (branches : List Changes) (key : Key) : List Ty :=
  let entries := branches.filterMap fun changes =>
    (Table.get? changes key).filter fun entry => entry.level ≤ s.level
  let before := if entries.length = branches.length then [] else [s.lookup w key]
  (entries.map Entry.value ++ before).filterMap id

def mergedKeys (s : Scope) (branches : List Changes) : List Key :=
  firsts (branches.flatMap fun changes =>
    (changes.filter fun (_, entry) => entry.level ≤ s.level).map Prod.fst)

def merge (s : Scope) (w : World) (branches : List Changes) : Scope :=
  (s.mergedKeys branches).foldl (fun t key =>
    match s.mergedValue w branches key with
    | [] => t
    | types => t.setKey key (some (Ty.union types))) s

def terminate (s : Scope) : Scope :=
  s.modifyFrame fun f =>
    if f.terminated then f else { f with terminated := true, frozen := f.table }

/-- Records a jump at the innermost frame that declares its label, and tells the level of that
frame. No jump gets out of a frame that control has left. -/
def storeJump (label : String) (value : Ty) (changes : Changes) :
    List Frame → List Frame × Option Nat
  | [] => ([], none)
  | f :: rest =>
    if f.terminated then (f :: rest, none)
    else if f.has (.named label) then
      let level := rest.length + 1
      let branch := Table.insert changes (.named label) ⟨level, some value⟩
      ({ f with jumps := f.jumps ++ [branch] } :: rest, some level)
    else
      let (rest, owner) := storeJump label value changes rest
      (f :: rest, owner)

def jump (s : Scope) (label : String) (value : Ty) : Scope :=
  if s.isTerminated then s
  else
    let changes := (s.frames.head?.map Frame.table).getD []
    let (frames, owner) := storeJump label value changes s.frames
    let s := { s with frames }
    let s := match owner with
      | some level => s.setEntry (.named label) ⟨level, some value⟩
      | none => s
    s.terminate

/-- Joins the jumps to labels of the innermost frame with each other, and with falling through if
control gets to the end. -/
def mergeJumps (s : Scope) (w : World) : Scope :=
  let jumps := (s.frames.head?.map Frame.jumps).getD []
  let s := s.modifyFrame fun f => { f with jumps := [] }
  if s.isTerminated then
    (s.modifyFrame fun f => { f with table := f.changes, frozen := none }).merge w jumps
  else s.merge w (jumps ++ [[]])

/-- After the branches of which control left none, control leaves this frame too. -/
def joinBranches (s : Scope) (w : World) (branches : List Frame) : Scope :=
  let changes := (branches.filter fun f => !f.terminated).map Frame.changes
  (if changes.isEmpty then s.terminate else s).merge w changes

end Scope

end FlowCompletion
