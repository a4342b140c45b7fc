
namespace FlowCompletion

inductive Toml where
  | string (value : String)
  | boolean (value : Bool)
  | integer (value : Int)
  | array (items : List Toml)
deriving Inhabited

namespace Toml

def string? : Toml → Option String
  | .string s => some s
  | _ => none

def strings? : Toml → Option (List String)
  | .array items => items.mapM string?
  | _ => none

def boolean? : Toml → Option Bool
  | .boolean b => some b
  | _ => none

def nat? : Toml → Option Nat
  | .integer i => if 0 ≤ i then some i.toNat else none
  | _ => none

end Toml

end FlowCompletion
