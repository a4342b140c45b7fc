
namespace FlowCompletion

inductive Visibility where
  | pub
  | prot
  | priv
deriving DecidableEq, Inhabited

namespace Visibility

def isPublic : Visibility → Bool
  | pub => true
  | _ => false

def isPrivate : Visibility → Bool
  | priv => true
  | _ => false

def rank : Visibility → Nat
  | pub => 0
  | prot => 1
  | priv => 2

def word : Visibility → String
  | pub => "public"
  | prot => "protected"
  | priv => "private"

def ofWord? : String → Option Visibility
  | "public" => some pub
  | "protected" => some prot
  | "private" => some priv
  | _ => none

end Visibility

end FlowCompletion
