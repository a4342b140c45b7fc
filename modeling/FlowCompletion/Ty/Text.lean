import FlowCompletion.Live.Text
import FlowCompletion.Ty.Sampled

namespace FlowCompletion

def textDepth : Nat := 4

namespace Member

def sampleMark (m : Member) : String :=
  if m.samples.isEmpty then "" else "#" ++ toString m.samples.length

def textWith (w : World) (params : Member → String) (m : Member) : String :=
  match m with
  | .itself id => "singleton(" ++ w.moduleName id ++ ")"
  | .instanceOf cls .. => w.moduleName cls ++ params m ++ m.sampleMark

end Member

namespace Ty

def textAt (w : World) : Nat → Ty → String
  | 0, t => joined (t.members.map (Member.textWith w fun _ => "[...]"))
  | depth + 1, t =>
    joined (t.members.map (Member.textWith w fun m =>
      match m.params w with
      | [] => ""
      | params =>
        "[" ++ ", ".intercalate (params.map fun p => p.1 ++ ": " ++ textAt w depth p.2) ++ "]"))
where
  joined : List String → String
    | [only] => only
    | texts => "(" ++ " | ".intercalate texts ++ ")"

def text (w : World) (t : Ty) : String := textAt w textDepth t

end Ty

end FlowCompletion
