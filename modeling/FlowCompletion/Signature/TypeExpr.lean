import FlowCompletion.Binary64.Basic
import FlowCompletion.Names
import FlowCompletion.Table

namespace FlowCompletion

inductive Literal where
  | integer (value : Int)
  | float (value : Binary64)
  | string (value : String)
  | symbol (value : String)
  | bool (value : Bool)
deriving Inhabited

/-- Floating point numbers are compared as numbers: both zeros are equal. -/
def Literal.equal : Literal → Literal → Bool
  | .integer a, .integer b => a == b
  | .float a, .float b => a.equal b
  | .string a, .string b => a == b
  | .symbol a, .symbol b => a == b
  | .bool a, .bool b => a == b
  | _, _ => false

inductive TypeExpr where
  | self
  | receiverInstance
  | receiverClass
  | bool
  | nil
  | bottom
  | any
  | void
  | top
  | union (types : List TypeExpr)
  | intersection (types : List TypeExpr)
  | optional (inner : TypeExpr)
  | tuple (types : List TypeExpr)
  | record (fields : List (String × TypeExpr))
  | literal (value : Literal)
  | var (name : String)
  | classInstance (name : String) (args : List TypeExpr)
  | classSingleton (name : String)
  | interface (name : String) (args : List TypeExpr)
  | abbreviation (name : String)
  | proc
deriving Inhabited

abbrev Substitution := Table String TypeExpr

namespace TypeExpr

mutual

def substitute (s : Substitution) : TypeExpr → TypeExpr
  | .var name => (Table.get? s name).getD (.var name)
  | .union types => .union (substituteAll s types)
  | .intersection types => .intersection (substituteAll s types)
  | .tuple types => .tuple (substituteAll s types)
  | .optional inner => .optional (inner.substitute s)
  | .record fields => .record (substituteFields s fields)
  | .classInstance name args => .classInstance name (substituteAll s args)
  | .interface name args => .interface name (substituteAll s args)
  | e => e

def substituteAll (s : Substitution) : List TypeExpr → List TypeExpr
  | [] => []
  | e :: rest => e.substitute s :: substituteAll s rest

def substituteFields (s : Substitution) : List (String × TypeExpr) → List (String × TypeExpr)
  | [] => []
  | (name, e) :: rest => (name, e.substitute s) :: substituteFields s rest

end

@[simp] theorem substituteAll_eq_map (s : Substitution) (types : List TypeExpr) :
    substituteAll s types = types.map (substitute s) := by
  induction types with
  | nil => simp [substituteAll]
  | cons e rest ih => simp [substituteAll, ih]

@[simp] theorem substituteFields_eq_map (s : Substitution) (fields : List (String × TypeExpr)) :
    substituteFields s fields = fields.map fun field => (field.1, field.2.substitute s) := by
  induction fields with
  | nil => simp [substituteFields]
  | cons field rest ih => simp [substituteFields, ih]

mutual

def mentions : TypeExpr → List String
  | .var name => [name]
  | .union types => mentionsAll types
  | .intersection types => mentionsAll types
  | .tuple types => mentionsAll types
  | .optional inner => inner.mentions
  | .record fields => mentionsFields fields
  | .classInstance _ args => mentionsAll args
  | .interface _ args => mentionsAll args
  | _ => []

def mentionsAll : List TypeExpr → List String
  | [] => []
  | e :: rest => e.mentions ++ mentionsAll rest

def mentionsFields : List (String × TypeExpr) → List String
  | [] => []
  | (_, e) :: rest => e.mentions ++ mentionsFields rest

end

mutual

def equal : TypeExpr → TypeExpr → Bool
  | .self, .self | .receiverInstance, .receiverInstance | .receiverClass, .receiverClass
  | .bool, .bool | .nil, .nil | .bottom, .bottom | .any, .any | .void, .void | .top, .top
  | .proc, .proc => true
  | .union a, .union b => equalAll a b
  | .intersection a, .intersection b => equalAll a b
  | .optional a, .optional b => equal a b
  | .tuple a, .tuple b => equalAll a b
  | .record a, .record b => equalFields a b
  | .literal a, .literal b => a.equal b
  | .var a, .var b => a == b
  | .classInstance a args, .classInstance b others => a == b && equalAll args others
  | .classSingleton a, .classSingleton b => a == b
  | .interface a args, .interface b others => a == b && equalAll args others
  | .abbreviation a, .abbreviation b => a == b
  | _, _ => false

def equalAll : List TypeExpr → List TypeExpr → Bool
  | [], [] => true
  | a :: rest, b :: others => equal a b && equalAll rest others
  | _, _ => false

def equalFields : List (String × TypeExpr) → List (String × TypeExpr) → Bool
  | [], [] => true
  | (name, a) :: rest, (other, b) :: others =>
    name == other && equal a b && equalFields rest others
  | _, _ => false

end

def isBottom : TypeExpr → Bool
  | .bottom => true
  | _ => false

end TypeExpr

end FlowCompletion
