import FlowCompletion.Signature.TypeExpr
import FlowCompletion.Visibility

namespace FlowCompletion

structure FunctionType where
  required : List TypeExpr := []
  optional : List TypeExpr := []
  rest : Option TypeExpr := none
  trailing : List TypeExpr := []
  requiredKeywords : Fields TypeExpr := []
  optionalKeywords : Fields TypeExpr := []
  restKeywords : Option TypeExpr := none
  result : TypeExpr := .any
deriving Inhabited

namespace FunctionType

def acceptsKeywords (f : FunctionType) : Bool :=
  !f.requiredKeywords.isEmpty || !f.optionalKeywords.isEmpty || f.restKeywords.isSome

def types (f : FunctionType) : List TypeExpr :=
  f.required ++ f.optional ++ f.rest.toList ++ f.trailing ++ f.requiredKeywords.map Prod.snd ++
    f.optionalKeywords.map Prod.snd ++ f.restKeywords.toList ++ [f.result]

def substitute (s : Substitution) (f : FunctionType) : FunctionType :=
  let keywords := fun (fields : Fields TypeExpr) =>
    fields.map fun field => (field.1, field.2.substitute s)
  { required := f.required.map (TypeExpr.substitute s)
    optional := f.optional.map (TypeExpr.substitute s)
    rest := f.rest.map (TypeExpr.substitute s)
    trailing := f.trailing.map (TypeExpr.substitute s)
    requiredKeywords := keywords f.requiredKeywords
    optionalKeywords := keywords f.optionalKeywords
    restKeywords := f.restKeywords.map (TypeExpr.substitute s)
    result := f.result.substitute s }

end FunctionType

structure BlockType where
  required : Bool := false
  function : FunctionType := {}
  selfType : Option TypeExpr := none
deriving Inhabited

namespace BlockType

def types (b : BlockType) : List TypeExpr := b.function.types ++ b.selfType.toList

def substitute (s : Substitution) (b : BlockType) : BlockType :=
  { b with function := b.function.substitute s, selfType := b.selfType.map (TypeExpr.substitute s) }

end BlockType

structure MethodType where
  typeParams : List String := []
  function : FunctionType := {}
  block : Option BlockType := none
deriving Inhabited

namespace MethodType

def types (m : MethodType) : List TypeExpr :=
  m.function.types ++ m.block.toList.flatMap BlockType.types

def freeVariables (m : MethodType) : List String :=
  firsts (m.types.flatMap TypeExpr.mentions)

def returnsBottom (m : MethodType) : Bool := m.function.result.isBottom

/-- Replaces the variables of the class; the method's own type parameters hide those of the same
name. -/
def substitute (s : Substitution) (m : MethodType) : MethodType :=
  let s := s.filter fun entry => entry.1 ∉ m.typeParams
  { m with function := m.function.substitute s, block := m.block.map (BlockType.substitute s) }

end MethodType

structure MethodDef where
  overloads : List MethodType
  visibility : Visibility := .pub
deriving Inhabited

def MethodDef.substitute (s : Substitution) (d : MethodDef) : MethodDef :=
  { d with overloads := d.overloads.map (MethodType.substitute s) }

end FlowCompletion
