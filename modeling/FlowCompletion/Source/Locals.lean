import FlowCompletion.Source.Children
import FlowCompletion.Table

namespace FlowCompletion

namespace Node

/-- The node and all below it, except what lies in nodes that start locals of their own. -/
def localNodes (n : Node) : List Node :=
  n :: n.children.attach.flatMap fun ⟨c, _⟩ => if c.opensScope then [] else c.localNodes
termination_by sizeOf n
decreasing_by exact sizeOf_lt_of_mem_children (by assumption)

def writtenLocal? (n : Node) : Option String :=
  match n.kind with
  | .varWrite .lvar name _ | .varTarget .lvar name | .varOpWrite .lvar name _ _
  | .varOrWrite .lvar name _ | .varAndWrite .lvar name _ => some name
  | _ => none

def localWrites (n : Node) : List String := n.localNodes.filterMap writtenLocal?

def declaredLocals (n : Node) : List String :=
  let writes := fun (body : Option Node) => body.elim [] localWrites
  firsts (match n.kind with
    | .methodDef _ _ params body | .block params body | .lambda params body =>
      params.names ++ writes body
    | .classDef _ _ body | .moduleDef _ body => writes body
    | .program body => body.localWrites
    | _ => n.localWrites)

end Node

end FlowCompletion
