
namespace FlowCompletion

def insertName (name : String) : List String → List String
  | [] => [name]
  | other :: rest =>
    if name < other then name :: other :: rest
    else if name = other then other :: rest
    else other :: insertName name rest

def sortedNames (names : List String) : List String :=
  names.foldr insertName []

/-- Values kept by name, with the names in order. -/
abbrev Fields (α : Type) := List (String × α)

namespace Fields

variable {α : Type}

def insert (name : String) (value : α) : Fields α → Fields α
  | [] => [(name, value)]
  | field :: rest =>
    if name < field.1 then (name, value) :: field :: rest
    else if name = field.1 then (name, value) :: rest
    else field :: insert name value rest

def get? (fields : Fields α) (name : String) : Option α :=
  List.lookup name fields

def ofList (entries : List (String × α)) : Fields α :=
  entries.foldl (fun fields entry => insert entry.1 entry.2 fields) []

def extend (fields other : Fields α) : Fields α :=
  other.foldl (fun fields entry => insert entry.1 entry.2 fields) fields

end Fields

end FlowCompletion
