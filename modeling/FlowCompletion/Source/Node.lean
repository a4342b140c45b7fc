import FlowCompletion.Binary64.Basic

namespace FlowCompletion

inductive VarKind where
  | lvar
  | ivar
  | cvar
  | gvar
deriving DecidableEq, Inhabited

inductive CallOperator where
  | dot
  | safeNav
  | doubleColon
deriving DecidableEq, Inhabited

def CallOperator.text : CallOperator → String
  | dot => "."
  | safeNav => "&."
  | doubleColon => "::"

structure Parameters where
  required : List String := []
  optional : List String := []
  rest : Option String := none
  post : List String := []
  keywords : List String := []
  keywordRest : Option String := none
  block : Option String := none
deriving DecidableEq, Inhabited

namespace Parameters

def names (p : Parameters) : List String :=
  p.required ++ p.optional ++ p.rest.toList ++ p.post ++ p.keywords ++ p.keywordRest.toList ++
    p.block.toList

def isEmpty (p : Parameters) : Bool := p.names.isEmpty

end Parameters

structure Span where
  start : Nat := 0
  stop : Nat := 0
deriving DecidableEq, Inhabited

inductive Quoting where
  | string
  | symbol
  | regexp
deriving DecidableEq, Inhabited

inductive JumpKind where
  | toReturn
  | toBreak
  | toNext
deriving DecidableEq, Inhabited

mutual

inductive Node where
  | mk (span : Span) (index : Nat) (kind : NodeKind)

inductive NodeKind where
  | program (body : Node)
  | statements (items : List Node)
  | parentheses (inner : Option Node)
  | nil
  | bool (value : Bool)
  | self
  | integer (value : Int)
  | float (value : Binary64)
  | rational (digits : String)
  | imaginary (digits : String)
  | string (content : String) (closed : Bool)
  | shell (command : String)
  | symbol (value : String) (closed : Bool)
  | regexp (source : String)
  | interpolated (quoting : Quoting) (parts : List Node)
  | array (items : List Node)
  | hash (items : List Node)
  | assoc (key value : Node)
  | assocSplat (inner : Option Node)
  | splat (inner : Option Node)
  | range (left right : Option Node) (exclusive : Bool)
  | varRead (var : VarKind) (name : String)
  | varWrite (var : VarKind) (name : String) (value : Node)
  | varTarget (var : VarKind) (name : String)
  | varOpWrite (var : VarKind) (name operator : String) (value : Node)
  | varOrWrite (var : VarKind) (name : String) (value : Node)
  | varAndWrite (var : VarKind) (name : String) (value : Node)
  | constRead (name : String)
  | constPath (parent : Option Node) (name : String)
  | constWrite (name : String) (value : Node)
  | constTarget (name : String)
  | call (receiver : Option Node) (operator : Option CallOperator) (name : String)
      (arguments block : Option Node) (parenthesized : Bool)
  | arguments (items : List Node)
  | keywordHash (items : List Node)
  | blockArgument (inner : Option Node)
  | block (params : Parameters) (body : Option Node)
  | lambda (params : Parameters) (body : Option Node)
  | ifThen (predicate : Node) (body subsequent : Option Node)
  | unlessThen (predicate : Node) (body otherwise : Option Node)
  | otherwise (body : Option Node)
  | caseOf (subject : Option Node) (conditions : List Node) (otherwise : Option Node)
  | whenClause (conditions : List Node) (body : Option Node)
  | whileLoop (predicate : Node) (body : Option Node)
  | untilLoop (predicate : Node) (body : Option Node)
  | forLoop (index collection : Node) (body : Option Node)
  | and (left right : Node)
  | or (left right : Node)
  | jump (jump : JumpKind) (value : Option Node)
  | beginBlock (body rescue otherwise ensure : Option Node)
  | rescue (exceptions : List Node) (reference body subsequent : Option Node)
  | rescueModifier (expression fallback : Node)
  | methodDef (name : String) (receiver : Option Node) (params : Parameters) (body : Option Node)
  | classDef (path : Node) (superclass body : Option Node)
  | moduleDef (path : Node) (body : Option Node)
  | multiWrite (targets : List Node) (value : Node)
  | defined (inner : Node)
  | yield (arguments : Option Node)
  | super (arguments : Option Node)
  | missing

end

instance : Inhabited Node := ⟨.mk {} 0 .missing⟩
instance : Inhabited NodeKind := ⟨.missing⟩

namespace Node

def ofKind (kind : NodeKind) : Node := .mk {} 0 kind

def span : Node → Span
  | .mk span _ _ => span

def index : Node → Nat
  | .mk _ index _ => index

def kind : Node → NodeKind
  | .mk _ _ kind => kind

def isIf (n : Node) : Bool :=
  match n.kind with
  | .ifThen .. => true
  | _ => false

def isBlockArgument (n : Node) : Bool :=
  match n.kind with
  | .blockArgument _ => true
  | _ => false

def isSplat (n : Node) : Bool :=
  match n.kind with
  | .splat _ => true
  | _ => false

def opensScope (n : Node) : Bool :=
  match n.kind with
  | .program _ | .methodDef .. | .block .. | .lambda .. | .classDef .. | .moduleDef .. => true
  | _ => false

def argumentItems (n : Option Node) : List Node :=
  match n.map kind with
  | some (.arguments items) => items
  | _ => []

/-- Calls such as `a.b = v` and `a[i] = v`: they have a receiver, and a name that ends in an equals
sign without being a comparison. -/
def isAttributeWrite (n : Node) : Bool :=
  match n.kind with
  | .call receiver _ name _ _ _ =>
    receiver.isSome && name.toList.getLast? == some '=' &&
      !(["==", "!=", "===", "<=", ">="].contains name)
  | _ => false

end Node

end FlowCompletion
