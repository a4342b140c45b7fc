import FlowCompletion.Json.Decoding
import FlowCompletion.Signature.Database

namespace FlowCompletion

def Literal.encode : Literal → Json
  | .integer value => .object [("integer", .whole value)]
  | .float value => .object [("float", if value.isFinite then .number (.real value) else .null)]
  | .string value => .object [("string", .string value)]
  | .symbol value => .object [("symbol", .string value)]
  | .bool value => .object [("bool", .bool value)]

namespace TypeExpr

def tagged (kind : String) (fields : List (String × Json)) : Json :=
  .object (("kind", .string kind) :: fields)

mutual

def encode : TypeExpr → Json
  | .self => tagged "self" []
  | .receiverInstance => tagged "instance" []
  | .receiverClass => tagged "class" []
  | .bool => tagged "bool" []
  | .nil => tagged "nil" []
  | .bottom => tagged "bottom" []
  | .any => tagged "any" []
  | .void => tagged "void" []
  | .top => tagged "top" []
  | .union types => tagged "union" [("types", .array (encodeAll types))]
  | .intersection types => tagged "intersection" [("types", .array (encodeAll types))]
  | .optional inner => tagged "optional" [("inner", inner.encode)]
  | .tuple types => tagged "tuple" [("types", .array (encodeAll types))]
  | .record fields => tagged "record" [("fields", .object (encodeFields fields))]
  | .literal value => tagged "literal" [("value", value.encode)]
  | .var name => tagged "variable" [("name", .string name)]
  | .classInstance name args =>
    tagged "class_instance" [("name", .string name), ("args", .array (encodeAll args))]
  | .classSingleton name => tagged "class_singleton" [("name", .string name)]
  | .interface name args =>
    tagged "interface" [("name", .string name), ("args", .array (encodeAll args))]
  | .abbreviation name => tagged "alias" [("name", .string name)]
  | .proc => tagged "proc" []

def encodeAll : List TypeExpr → List Json
  | [] => []
  | e :: rest => e.encode :: encodeAll rest

def encodeFields : List (String × TypeExpr) → List (String × Json)
  | [] => []
  | (name, e) :: rest => (name, e.encode) :: encodeFields rest

end

end TypeExpr

def FunctionType.encode (f : FunctionType) : Json :=
  .object
    [("required_positionals", .array (f.required.map TypeExpr.encode)),
      ("optional_positionals", .array (f.optional.map TypeExpr.encode)),
      ("rest_positionals", .option TypeExpr.encode f.rest),
      ("trailing_positionals", .array (f.trailing.map TypeExpr.encode)),
      ("required_keywords", .ofFields TypeExpr.encode f.requiredKeywords),
      ("optional_keywords", .ofFields TypeExpr.encode f.optionalKeywords),
      ("rest_keywords", .option TypeExpr.encode f.restKeywords),
      ("return_type", f.result.encode)]

def BlockType.encode (b : BlockType) : Json :=
  .object
    [("required", .bool b.required), ("function", b.function.encode),
      ("self_type", .option TypeExpr.encode b.selfType)]

def MethodType.encode (m : MethodType) : Json :=
  .object
    [("type_params", .strings m.typeParams), ("function", m.function.encode),
      ("block", .option BlockType.encode m.block)]

def MethodDef.encode (d : MethodDef) : Json :=
  .object
    [("overloads", .array (d.overloads.map MethodType.encode)),
      ("visibility", .string d.visibility.word)]

def TypeRef.encode (r : TypeRef) : Json :=
  .object [("name", .string r.name), ("args", .array (r.args.map TypeExpr.encode))]

def ClassDecl.encode (d : ClassDecl) : Json :=
  .object
    [("name", .string d.name), ("type_params", .strings d.typeParams),
      ("superclass", .option TypeRef.encode d.superclass),
      ("includes", .array (d.includes.map TypeRef.encode)),
      ("instance_methods", .ofFields MethodDef.encode d.instanceMethods),
      ("singleton_methods", .ofFields MethodDef.encode d.singletonMethods)]

def InterfaceDecl.encode (d : InterfaceDecl) : Json :=
  .object
    [("name", .string d.name), ("type_params", .strings d.typeParams),
      ("methods", .ofFields MethodDef.encode d.methods)]

end FlowCompletion
