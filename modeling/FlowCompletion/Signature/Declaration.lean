import FlowCompletion.Signature.Method

namespace FlowCompletion

structure TypeRef where
  name : String
  args : List TypeExpr := []
deriving Inhabited

def TypeRef.equal (a b : TypeRef) : Bool :=
  a.name == b.name && TypeExpr.equalAll a.args b.args

structure ClassDecl where
  name : String := ""
  typeParams : List String := []
  superclass : Option TypeRef := none
  includes : List TypeRef := []
  instanceMethods : Fields MethodDef := []
  singletonMethods : Fields MethodDef := []
deriving Inhabited

namespace ClassDecl

def addIncludes (includes others : List TypeRef) : List TypeRef :=
  others.foldl
    (fun all r => if all.any fun known => known.equal r then all else all ++ [r]) includes

/-- A class declared again: type parameters and superclass stay once they are known, later method
definitions take the place of earlier ones. -/
def merge (decl other : ClassDecl) : ClassDecl :=
  { name := decl.name
    typeParams := if decl.typeParams.isEmpty then other.typeParams else decl.typeParams
    superclass := decl.superclass <|> other.superclass
    includes := addIncludes decl.includes other.includes
    instanceMethods := Fields.extend decl.instanceMethods other.instanceMethods
    singletonMethods := Fields.extend decl.singletonMethods other.singletonMethods }

end ClassDecl

structure InterfaceDecl where
  name : String := ""
  typeParams : List String := []
  methods : Fields MethodDef := []
deriving Inhabited

end FlowCompletion
