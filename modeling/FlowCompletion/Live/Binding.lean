import FlowCompletion.Live.Construction
import FlowCompletion.Live.Methods

namespace FlowCompletion

structure Binding where
  receiver : Obj
  locals : Table String Obj := []
  globals : Table String Obj := []
  constants : Table String Obj := []
  nesting : List ModuleId := []
  sourceFile : Option String := none

namespace Binding

def topLevel (w : World) : World × Binding :=
  let (w, main) := w.addInstance .object .plain
  (w, { receiver := main })

/-- Constants are looked up in the enclosing modules, innermost first, then at the top level, then
among the built-in ones. -/
def constantTables (b : Binding) (w : World) : List (Table String Obj) :=
  b.nesting.reverse.map (fun m => (w.module m).constants) ++
    [b.constants, (w.module .object).constants]

def constant? (b : Binding) (w : World) (name : String) : Option Obj :=
  firstDefinition (b.constantTables w) name

def constantNames (b : Binding) (w : World) : List String :=
  sortedNames ((b.constantTables w).flatMap Table.keys)

end Binding

end FlowCompletion
