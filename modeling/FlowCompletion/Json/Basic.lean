import FlowCompletion.Binary64.Shortest

namespace FlowCompletion

/-- Whole numbers of 64 bits are kept exactly, all other numbers as floating point numbers. -/
inductive JsonNumber where
  | whole (value : Int)
  | real (value : Binary64)
deriving DecidableEq, Inhabited

/-- Objects keep their fields in the order written, repeated names included. A string with an
unpaired surrogate and a number beyond all floating point numbers are `unreadable`: they may stand
only where nobody looks. -/
inductive Json where
  | null
  | bool (value : Bool)
  | number (value : JsonNumber)
  | string (value : String)
  | array (items : List Json)
  | object (fields : List (String × Json))
  | unreadable
deriving Inhabited

namespace Json

def whole (value : Int) : Json := .number (.whole value)

def strings (values : List String) : Json := .array (values.map .string)

def option {α : Type} (encode : α → Json) : Option α → Json
  | none => .null
  | some a => encode a

def get? (json : Json) (name : String) : Option Json :=
  match json with
  | .object fields => List.lookup name fields
  | _ => none

def string? : Json → Option String
  | .string s => some s
  | _ => none

def bool? : Json → Option Bool
  | .bool b => some b
  | _ => none

def whole? : Json → Option Int
  | .number (.whole i) => some i
  | _ => none

def array? : Json → Option (List Json)
  | .array items => some items
  | _ => none

end Json

end FlowCompletion
