import FlowCompletion.Source.Children

namespace FlowCompletion

namespace Node

def render (form : Form) (n : Node) : String :=
  String.join ((n.parts form).attach.map fun ⟨part, h⟩ =>
    match part, h with
    | .text s, _ => s
    | .node inner c, _ => c.render inner)
termination_by sizeOf n
decreasing_by exact sizeOf_lt_of_mem_parts (by assumption)

/-- Gives the node and all below it their places, the first byte at `start`; with it comes the
place after the last byte. -/
def placed (form : Form) (start : Nat) (n : Node) : Node × Nat :=
  let (children, stop) := (n.parts form).attach.foldl (fun (done, here) ⟨part, h⟩ =>
    match part, h with
    | .text s, _ => (done, here + s.utf8ByteSize)
    | .node inner c, _ =>
      let (child, after) := c.placed inner here
      (done ++ [child], after)) ([], start)
  (.mk ⟨start, stop⟩ n.index (n.kind.withChildren children), stop)
termination_by sizeOf n
decreasing_by exact sizeOf_lt_of_mem_parts (by assumption)

def numbered (first : Nat) (n : Node) : Node × Nat :=
  let (children, next) := n.children.attach.foldl (fun (done, next) ⟨c, _⟩ =>
    let (child, next) := c.numbered next
    (done ++ [child], next)) ([], first + 1)
  (.mk n.span first (n.kind.withChildren children), next)
termination_by sizeOf n
decreasing_by exact sizeOf_lt_of_mem_children (by assumption)

def layout (n : Node) : String × Node :=
  (n.render .whole, (n.placed .whole 0).1)

def preorder (n : Node) : List Node :=
  n :: n.children.attach.flatMap fun ⟨c, _⟩ => c.preorder
termination_by sizeOf n
decreasing_by exact sizeOf_lt_of_mem_children (by assumption)

def find? (accept : Node → Bool) (n : Node) : Option Node :=
  if accept n then some n
  else n.children.attach.findSome? fun ⟨c, _⟩ => c.find? accept
termination_by sizeOf n
decreasing_by exact sizeOf_lt_of_mem_children (by assumption)

/-- The path from the tree's root to the innermost node that ends at a place. Children come before
their parent, and the first child wins. -/
def locate (offset : Nat) (n : Node) : Option (List Node) :=
  match n.children.attach.findSome? fun ⟨c, _⟩ => c.locate offset with
  | some path => some (n :: path)
  | none => if n.span.stop = offset then some [n] else none
termination_by sizeOf n
decreasing_by exact sizeOf_lt_of_mem_children (by assumption)

def pathTo (index : Nat) (n : Node) : Option (List Node) :=
  if n.index = index then some [n]
  else (n.children.attach.findSome? fun ⟨c, _⟩ => c.pathTo index).map (n :: ·)
termination_by sizeOf n
decreasing_by exact sizeOf_lt_of_mem_children (by assumption)

end Node

end FlowCompletion
