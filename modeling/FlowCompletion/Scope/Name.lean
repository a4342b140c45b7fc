
namespace FlowCompletion

inductive NameKind where
  | lvar
  | ivar
  | cvar
  | gvar
  | const
  /-- Labels of jumps, which no program can spell. -/
  | label
deriving DecidableEq, Inhabited

namespace NameKind

def word : NameKind → String
  | lvar => "local"
  | ivar => "instance"
  | cvar => "class"
  | gvar => "global"
  | const => "const"
  | label => "internal"

def isPath : List Char → Bool
  | ':' :: ':' :: _ => true
  | _ :: cs => isPath cs
  | [] => false

def ofChars : List Char → NameKind
  | '@' :: '@' :: _ => cvar
  | '@' :: _ => ivar
  | '$' :: _ => gvar
  | '%' :: _ => label
  | cs => if isPath cs || cs.head?.any Char.isUpper then const else lvar

def ofName (name : String) : NameKind := ofChars name.toList

end NameKind

def stripPrefix? (start text : String) : Option String :=
  if start.toList.isPrefixOf text.toList then
    some (String.ofList (text.toList.drop start.toList.length))
  else none

end FlowCompletion
