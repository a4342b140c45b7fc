import FlowCompletion.Completion.Request
import FlowCompletion.Signature.Store

namespace FlowCompletion

structure Engine where
  store : Store := {}
  settings : Settings := {}
  lastError : Option AnalysisError := none

namespace Engine

def preload (files : FileSystem) (e : Engine) : Bool × Engine :=
  let (started, store) := e.store.preload files e.settings.signaturePaths
  (started, { e with store })

def start (files : FileSystem) (settings : Settings) : Engine :=
  let e : Engine := { settings }
  if settings.preload && !settings.signaturePaths.isEmpty then (e.preload files).2 else e

def load (files : FileSystem) (e : Engine) : Except AnalysisError Unit × Engine :=
  let (result, store) := e.store.loadPaths files e.settings.signaturePaths
  (result.mapError .signature, { e with store })

/-- A request that fails has no answer, and its error is kept. -/
def analyze (w : World) (binding : Binding) (root : Node) (offset : Nat) (e : Engine) :
    Option Analysis × Engine :=
  let r : Request :=
    { world := w, binding, database := e.store.database, settings := e.settings, root, offset }
  match r.answer with
  | .ok analysis => (analysis, e)
  | .error error => (none, { e with lastError := some error })

def takeError (e : Engine) : Option AnalysisError × Engine :=
  (e.lastError, { e with lastError := none })

def info (e : Engine) : String := "replty 0.1.0: " ++ e.store.state.text

def inspect (e : Engine) : String :=
  "Completor \x7b signatures: " ++ e.store.state.inspect ++ ", config: " ++ e.settings.inspect ++
    " \x7d"

end Engine

end FlowCompletion
