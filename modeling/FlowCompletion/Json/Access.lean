import FlowCompletion.Json.Basic

namespace FlowCompletion

namespace Json

def present? : Json → Option Json
  | .null => none
  | value => some value

def field (json : Json) (name : String) : Json := (json.get? name).getD .null

def items (json : Json) : List Json := json.array?.getD []

def item (json : Json) (position : Nat) : Json := json.items.getD position .null

def list (json : Json) (name : String) : List Json := (json.field name).items

def text? (json : Json) (name : String) : Option String := (json.field name).string?

def text (json : Json) (name : String) : String := (json.text? name).getD ""

def texts (json : Json) (name : String) : List String := (json.list name).filterMap string?

def flag (json : Json) (name : String) (fallback : Bool) : Bool :=
  (json.field name).bool?.getD fallback

end Json

end FlowCompletion
