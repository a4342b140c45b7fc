import FlowCompletion.Json.Decoding
import FlowCompletion.Json.Reading
import FlowCompletion.Signature.Database

namespace FlowCompletion

def deepestNesting : Nat := 127

def wholeIn64Bits? : Json → Option Int
  | .number (.whole i) => if - 0x8000000000000000 ≤ i ∧ i < 0x8000000000000000 then some i else none
  | _ => none

def real? : Json → Option Binary64
  | .number (.real x) => some x
  | .number (.whole i) => some (Binary64.ofRatio (i < 0) i.natAbs 1)
  | _ => none

def Literal.decode? : Json → Option Literal
  | .object [("integer", value)] => (wholeIn64Bits? value).map .integer
  | .object [("float", value)] => (real? value).map .float
  | .object [("string", value)] => value.string?.map .string
  | .object [("symbol", value)] => value.string?.map .symbol
  | .object [("bool", value)] => value.bool?.map .bool
  | _ => none

namespace TypeExpr

def kinds : List (String × List String) :=
  [("self", []), ("instance", []), ("class", []), ("bool", []), ("nil", []), ("bottom", ["bot"]),
    ("any", ["untyped"]), ("void", []), ("top", []), ("union", []), ("intersection", []),
    ("optional", []), ("tuple", []), ("record", []), ("literal", []), ("variable", []),
    ("class_instance", []), ("class_singleton", []), ("interface", []), ("alias", []), ("proc", [])]

/-- A kind is given by name; inside another type it may also be given by its number. -/
def kind? (inside : Bool) : Json → Option String
  | .string s => (kinds.find? fun kind => kind.1 = s ∨ s ∈ kind.2).map Prod.fst
  | .number (.whole i) => if inside ∧ 0 ≤ i then (kinds[i.toNat]?).map Prod.fst else none
  | _ => none

/-- Takes the kind from a type: an object tells it in a field, an array at its start. -/
def untag? (inside : Bool) : Json → Option (String × Json)
  | .object fields =>
    if (fields.map Prod.fst).count "kind" ≤ 1 then do
      let kind ← kind? inside (← List.lookup "kind" fields)
      some (kind, .object (fields.filter fun field => field.1 ≠ "kind"))
    else none
  | .array (first :: rest) => (kind? inside first).map fun kind => (kind, .array rest)
  | _ => none

def simple? : String → Option TypeExpr
  | "self" => some .self
  | "instance" => some .receiverInstance
  | "class" => some .receiverClass
  | "bool" => some .bool
  | "nil" => some .nil
  | "bottom" => some .bottom
  | "any" => some .any
  | "void" => some .void
  | "top" => some .top
  | "proc" => some .proc
  | _ => none

def one? {α : Type} (name : String) (decode : Json → Option α) (body : Json) : Option α := do
  match ← body.record? [name] with
  | [some value] => decode value
  | _ => none

def named? (decode : Json → Option (List TypeExpr)) (body : Json) :
    Option (String × List TypeExpr) := do
  match ← body.record? ["name", "args"] with
  | [some name, args] => some (← name.string?, ← Json.given? [] decode args)
  | _ => none

def ofBody? (decode : Json → Option TypeExpr) (kind : String) (body : Json) : Option TypeExpr :=
  let types := Json.listOf? decode
  match kind with
  | "union" => (one? "types" types body).map .union
  | "intersection" => (one? "types" types body).map .intersection
  | "optional" => (one? "inner" decode body).map .optional
  | "tuple" => (one? "types" types body).map .tuple
  | "record" => (one? "fields" (Json.fieldsOf? decode) body).map .record
  | "literal" => (one? "value" Literal.decode? body).map .literal
  | "variable" => (one? "name" Json.string? body).map .var
  | "class_instance" => (named? types body).map fun (name, args) => .classInstance name args
  | "class_singleton" => (one? "name" Json.string? body).map .classSingleton
  | "interface" => (named? types body).map fun (name, args) => .interface name args
  | "alias" => (one? "name" Json.string? body).map .abbreviation
  | kind => match body with
    | .array (_ :: _) => none
    | _ => simple? kind

def decodeWithin (height : Nat) (inside : Bool) (value : Json) : Option TypeExpr :=
  match height with
  | 0 => none
  | height + 1 => do
    let (kind, body) ← untag? inside value
    ofBody? (decodeWithin height true) kind body

def decodeUpTo? (limit : Option Nat) (depth : Nat) (value : Json) : Option TypeExpr :=
  if value.isReadable ∧ value.fits limit depth then decodeWithin (value.nesting + 1) false value
  else none

def decode? : Nat → Json → Option TypeExpr := decodeUpTo? (some deepestNesting)

end TypeExpr

section

variable (limit : Option Nat) (depth : Nat)

def FunctionType.decodeUpTo? (value : Json) : Option FunctionType := do
  let types := Json.given? [] (Json.listOf? (TypeExpr.decodeUpTo? limit (depth + 2)))
  let type := Json.given? none (Json.orNull? (TypeExpr.decodeUpTo? limit (depth + 1)))
  let keywords := Json.given? [] (Json.fieldsOf? (TypeExpr.decodeUpTo? limit (depth + 2)))
  match ← value.record? ["required_positionals", "optional_positionals", "rest_positionals",
    "trailing_positionals", "required_keywords", "optional_keywords", "rest_keywords",
    "return_type"] with
  | [required, optional, rest, trailing, requiredKeywords, optionalKeywords, restKeywords,
      result] =>
    some {
      required := ← types required
      optional := ← types optional
      rest := ← type rest
      trailing := ← types trailing
      requiredKeywords := ← keywords requiredKeywords
      optionalKeywords := ← keywords optionalKeywords
      restKeywords := ← type restKeywords
      result := ← Json.given? .any (TypeExpr.decodeUpTo? limit (depth + 1)) result }
  | _ => none

def BlockType.decodeUpTo? (value : Json) : Option BlockType := do
  match ← value.record? ["required", "function", "self_type"] with
  | [required, function, selfType] =>
    some {
      required := ← Json.given? false Json.bool? required
      function := ← Json.given? {} (FunctionType.decodeUpTo? limit (depth + 1)) function
      selfType :=
        ← Json.given? none (Json.orNull? (TypeExpr.decodeUpTo? limit (depth + 1))) selfType }
  | _ => none

def MethodType.decodeUpTo? (value : Json) : Option MethodType := do
  match ← value.record? ["type_params", "function", "block"] with
  | [typeParams, function, block] =>
    some {
      typeParams := ← Json.given? [] Json.strings? typeParams
      function := ← Json.given? {} (FunctionType.decodeUpTo? limit (depth + 1)) function
      block := ← Json.given? none (Json.orNull? (BlockType.decodeUpTo? limit (depth + 1))) block }
  | _ => none

def Visibility.decode? : Json → Option Visibility
  | .string word => Visibility.ofWord? word
  | .object [(word, .null)] => Visibility.ofWord? word
  | _ => none

def MethodDef.decodeUpTo? (value : Json) : Option MethodDef := do
  match ← value.record? ["overloads", "visibility"] with
  | [some overloads, visibility] =>
    some {
      overloads := ← Json.listOf? (MethodType.decodeUpTo? limit (depth + 2)) overloads
      visibility := ← Json.given? .pub Visibility.decode? visibility }
  | _ => none

def TypeRef.decodeUpTo? (value : Json) : Option TypeRef := do
  match ← value.record? ["name", "args"] with
  | [some name, args] =>
    some {
      name := ← name.string?
      args := ← Json.given? [] (Json.listOf? (TypeExpr.decodeUpTo? limit (depth + 2))) args }
  | _ => none

def ClassDecl.decodeUpTo? (value : Json) : Option ClassDecl := do
  let methods := Json.given? [] (Json.fieldsOf? (MethodDef.decodeUpTo? limit (depth + 2)))
  match ← value.record? ["name", "type_params", "superclass", "includes", "instance_methods",
    "singleton_methods"] with
  | [name, typeParams, superclass, includes, instanceMethods, singletonMethods] =>
    some {
      name := ← Json.given? "" Json.string? name
      typeParams := ← Json.given? [] Json.strings? typeParams
      superclass :=
        ← Json.given? none (Json.orNull? (TypeRef.decodeUpTo? limit (depth + 1))) superclass
      includes := ← Json.given? [] (Json.listOf? (TypeRef.decodeUpTo? limit (depth + 2))) includes
      instanceMethods := ← methods instanceMethods
      singletonMethods := ← methods singletonMethods }
  | _ => none

def InterfaceDecl.decodeUpTo? (value : Json) : Option InterfaceDecl := do
  let methods := Json.given? [] (Json.fieldsOf? (MethodDef.decodeUpTo? limit (depth + 2)))
  match ← value.record? ["name", "type_params", "methods"] with
  | [name, typeParams, known] =>
    some {
      name := ← Json.given? "" Json.string? name
      typeParams := ← Json.given? [] Json.strings? typeParams
      methods := ← methods known }
  | _ => none

end

def MethodType.decode? : Nat → Json → Option MethodType := decodeUpTo? (some deepestNesting)

def ClassDecl.decode? : Nat → Json → Option ClassDecl := decodeUpTo? (some deepestNesting)

def InterfaceDecl.decode? : Nat → Json → Option InterfaceDecl := decodeUpTo? (some deepestNesting)

namespace Document

def decode? (value : Json) : Option Document := do
  match ← value.record? ["classes", "interfaces"] with
  | [classes, interfaces] =>
    some {
      classes := ← Json.given? [] (Json.listOf? (ClassDecl.decode? 2)) classes
      interfaces := ← Json.given? [] (Json.listOf? (InterfaceDecl.decode? 2)) interfaces }
  | _ => none

def read? (text : String) : Option Document :=
  (Json.read? text).bind decode?

end Document

end FlowCompletion
