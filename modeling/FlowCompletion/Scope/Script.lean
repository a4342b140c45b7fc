import FlowCompletion.Scope.Flow

namespace FlowCompletion

inductive ScopeStep (α : Type) where
  | set (name : String) (t : Ty)
  | setConstant (m : ModuleId) (name : String) (t : Ty)
  | terminate
  | jump (label : String) (t : Ty)
  | mergeJumps
  /-- A frame of its own; its changes are taken over or forgotten. -/
  | child (frame : Frame) (declared : List (String × Option Ty)) (steps : List (ScopeStep α))
      (update : Bool)
  | branches (bodies : List (List (ScopeStep α)))
  | conditional (steps : List (ScopeStep α))
  | ask (question : World → Scope → α)

inductive ScopeAnswer (α : Type) where
  | done
  | told (answer : α)
  | child (answers : List (ScopeAnswer α)) (changes : Changes)
  | branches (answers : List (List (ScopeAnswer α)))
  | conditional (answers : Option (List (ScopeAnswer α)))

namespace ScopeStep

def kept {β : Type} (runs : List (β × Frame)) : List β :=
  (runs.filter fun run => !run.2.terminated).map Prod.fst

mutual

def run {α : Type} (w : World) : ScopeStep α → Scope → ScopeAnswer α × Scope
  | .set name t, s => (.done, s.set name t)
  | .setConstant m name t, s => (.done, s.setConstant w m name t)
  | .terminate, s => (.done, s.terminate)
  | .jump label t, s => (.done, s.jump label t)
  | .mergeJumps, s => (.done, s.mergeJumps w)
  | .child frame declared steps update, s =>
    let (answers, s) := runAll w steps (s.enter frame declared)
    let (left, s) := s.leave
    (.child answers left.changes, if update then s.update left.changes else s)
  | .branches bodies, s =>
    let (runs, s) := runBranches w bodies s
    (.branches (kept runs), s.joinBranches w (runs.map Prod.snd))
  | .conditional steps, s =>
    let (answers, s) := runAll w steps (s.enter {} [])
    let (left, s) := s.leave
    (.conditional (if left.terminated then none else some answers), s.joinBranches w [left, {}])
  | .ask question, s => (.told (question w s), s)

def runAll {α : Type} (w : World) : List (ScopeStep α) → Scope → List (ScopeAnswer α) × Scope
  | [], s => ([], s)
  | step :: rest, s =>
    let (answer, s) := run w step s
    let (answers, s) := runAll w rest s
    (answer :: answers, s)

def runBranches {α : Type} (w : World) :
    List (List (ScopeStep α)) → Scope → List (List (ScopeAnswer α) × Frame) × Scope
  | [], s => ([], s)
  | body :: rest, s =>
    let (answers, s) := runAll w body (s.enter {} [])
    let (left, s) := s.leave
    let (runs, s) := runBranches w rest s
    ((answers, left) :: runs, s)

end

end ScopeStep

end FlowCompletion
