import FlowCompletion.Binary64.Shortest
import FlowCompletion.Live.Methods
import FlowCompletion.Text.Quoted

namespace FlowCompletion

namespace World

def moduleName (w : World) (m : ModuleId) : String :=
  match (w.module m).name with
  | some name => name
  | none => if w.isClass m then "#<Class>" else "#<Module>"

def inspect (w : World) (o : Obj) : String :=
  match o with
  | .ofModule m => w.moduleName m
  | .ofInstance _ =>
    let cls := w.moduleName (w.classOf o)
    match w.payload o with
    | .nil => "nil"
    | .bool b => if b then "true" else "false"
    | .integer i => toString i
    | .float x => x.text
    | .string s => quotedText s
    | .symbol s => ":" ++ s
    | .array _ | .hash _ | .range _ _ => "#<" ++ cls ++ " ...>"
    | .plain => "#<" ++ cls ++ ">"

end World

end FlowCompletion
