
namespace FlowCompletion

abbrev Table (κ : Type) (α : Type) := List (κ × α)

namespace Table

variable {κ α : Type} [DecidableEq κ]

def get? (t : Table κ α) (key : κ) : Option α :=
  List.lookup key t

def contains (t : Table κ α) (key : κ) : Bool :=
  (get? t key).isSome

def keys (t : Table κ α) : List κ :=
  t.map Prod.fst

def insert (t : Table κ α) (key : κ) (value : α) : Table κ α :=
  match t with
  | [] => [(key, value)]
  | entry :: rest =>
    if entry.1 = key then (key, value) :: rest else entry :: insert rest key value

def erase (t : Table κ α) (key : κ) : Table κ α :=
  t.filter fun entry => entry.1 ≠ key

def ofList (entries : List (κ × α)) : Table κ α :=
  entries.foldl (fun t entry => insert t entry.1 entry.2) []

def extend (t other : Table κ α) : Table κ α :=
  other.foldl (fun t entry => insert t entry.1 entry.2) t

end Table

def firsts {α : Type} [DecidableEq α] : List α → List α
  | [] => []
  | a :: l => a :: (firsts l).filter fun b => b ≠ a

end FlowCompletion
