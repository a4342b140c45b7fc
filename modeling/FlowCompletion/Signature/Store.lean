import FlowCompletion.Signature.Loading
import FlowCompletion.Text.Quoted

namespace FlowCompletion

inductive LoadState where
  | notStarted
  | inProgress
  | failed (detail : String)
  | ready
deriving DecidableEq, Inhabited

namespace LoadState

def text : LoadState → String
  | notStarted => "signatures not loaded"
  | inProgress => "signatures loading"
  | failed detail => "signature load failed: " ++ detail
  | ready => "signatures ready"

def inspect : LoadState → String
  | notStarted => "NotStarted"
  | inProgress => "InProgress"
  | failed detail => "Failed(" ++ quotedText detail ++ ")"
  | ready => "Ready"

end LoadState

structure Store where
  database : Option Database := none
  state : LoadState := .notStarted
deriving Inhabited

namespace Store

def install (s : Store) (db : Database) : Store :=
  { database := s.database <|> some db, state := .ready }

def ofDatabase (db : Database) : Store := install {} db

def inspect (s : Store) : String := "SignatureStore \x7b state: " ++ s.state.inspect ++ " \x7d"

def finish (s : Store) : Except LoadError Database → Store
  | .ok db => s.install db
  | .error e => { s with state := .failed e.message }

/-- Marks a load as running, unless there is a database or a load runs already. -/
def start? (s : Store) : Option Store :=
  if s.database.isSome ∨ s.state = .inProgress then none else some { s with state := .inProgress }

/-- Runs a loader, which may use the store itself meanwhile. -/
def loadWith {m : Type → Type} [Monad m] (loader : StateT Store m (Except LoadError Database)) :
    StateT Store m (Except LoadError Unit) := fun s =>
  match s.start? with
  | none => pure (.ok (), s)
  | some s => do
    let (result, s) ← loader s
    pure (result.map fun _ => (), s.finish result)

def loadPaths (files : FileSystem) (paths : List String) (s : Store) :
    Except LoadError Unit × Store :=
  loadWith (m := Id) (pure (Database.load files paths)) s

def preloadWith {m : Type → Type} [Monad m]
    (loader : StateT Store m (Except LoadError Database)) : StateT Store m Bool := fun s =>
  if s.state = .notStarted then do
    let (result, s) ← loader { s with state := .inProgress }
    pure (true, s.finish result)
  else pure (false, s)

def preload (files : FileSystem) (paths : List String) (s : Store) : Bool × Store :=
  preloadWith (m := Id) (pure (Database.load files paths)) s

end Store

end FlowCompletion
