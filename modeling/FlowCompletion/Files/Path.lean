
namespace FlowCompletion

namespace Path

def splitSlash : List Char → List (List Char)
  | [] => [[]]
  | c :: cs =>
    if c = '/' then [] :: splitSlash cs
    else match splitSlash cs with
      | [] => [[c]]
      | piece :: rest => (c :: piece) :: rest

def pieces (path : String) : List String := (splitSlash path.toList).map String.ofList

def isAbsolute (path : String) : Bool := path.toList.head? == some '/'

def join (base path : String) : String :=
  if isAbsolute path then path
  else match base.toList.getLast? with
    | none => path
    | some '/' => base ++ path
    | some _ => base ++ "/" ++ path

def isIdle (piece : String) : Bool := piece == "" || piece == "."

def dropIdleEnd (pieces : List String) : List String :=
  (pieces.reverse.dropWhile isIdle).reverse

/-- The start of a path that is no name to be taken off: a slash, or a dot before a slash. -/
def splitLead (path : String) : String × List String :=
  match path.toList with
  | '/' :: rest => ("/", (splitSlash rest).map String.ofList)
  | ['.'] => (".", [])
  | '.' :: '/' :: rest => (".", "" :: (splitSlash rest).map String.ofList)
  | chars => ("", (splitSlash chars).map String.ofList)

/-- The path without its last name, and without what leads nowhere before it. -/
def parent? (path : String) : Option String :=
  let (lead, rest) := splitLead path
  match (dropIdleEnd rest).reverse with
  | [] => if lead = "." then some "" else none
  | _ :: before => some (lead ++ "/".intercalate (dropIdleEnd before.reverse))

/-- A file name before and after its last dot. A dot at the start of a name divides nothing. -/
def splitName (name : String) : String × Option String :=
  let reversed := name.toList.reverse
  let after := reversed.takeWhile (· ≠ '.')
  match reversed.dropWhile (· ≠ '.') with
  | _ :: before =>
    if before.isEmpty then (name, none)
    else (String.ofList before.reverse, some (String.ofList after.reverse))
  | [] => (name, none)

def extension? (name : String) : Option String := (splitName name).2

def stem (name : String) : String := (splitName name).1

def directoryPart (path : String) : String :=
  String.ofList (path.toList.reverse.dropWhile (· ≠ '/')).reverse

end Path

end FlowCompletion
