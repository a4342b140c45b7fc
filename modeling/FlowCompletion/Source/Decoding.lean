import FlowCompletion.Binary64.Reading
import FlowCompletion.Json.Access
import FlowCompletion.Json.Decoding
import FlowCompletion.Source.Build

namespace FlowCompletion

namespace Node

def varKind : String → VarKind
  | "instance" => .ivar
  | "class" => .cvar
  | "global" => .gvar
  | _ => .lvar

def operator? : String → Option CallOperator
  | "." => some .dot
  | "&." => some .safeNav
  | "::" => some .doubleColon
  | _ => none

def parametersOf (j : Json) : Parameters :=
  { required := j.texts "required"
    optional := j.texts "optional"
    rest := j.text? "rest"
    post := j.texts "post"
    keywords := j.texts "keywords"
    keywordRest := j.text? "keyword_rest"
    block := j.text? "block" }

def floatOf (s : String) : Binary64 := (Binary64.read? s).getD .nan

def kindOf? (node? : Json → Option Node) (j : Json) : Option NodeKind := do
  let n := fun k => node? (j.field k)
  let o := fun k => (j.field k).present?.mapM node?
  let l := fun k => (j.list k).mapM node?
  let name := j.text "name"
  let value := j.text "value"
  let var := varKind (j.text "var")
  let params := parametersOf (j.field "params")
  match j.text "n" with
  | "program" => return .program (← n "body")
  | "statements" => return .statements (← l "items")
  | "parentheses" => return .parentheses (← o "body")
  | "nil" => return .nil
  | "true" => return .bool true
  | "false" => return .bool false
  | "self" => return .self
  | "integer" => return .integer ((j.field "value").whole?.getD 0)
  | "float" => return .float (floatOf value)
  | "rational" => return .rational value
  | "imaginary" => return .imaginary value
  | "str" => return .string (j.text "content") (j.flag "closed" true)
  | "interpolated_str" => return .interpolated .string (← l "items")
  | "xstr" => return .shell value
  | "symbol" => return .symbol value (j.flag "closed" false)
  | "interpolated_symbol" => return .interpolated .symbol (← l "items")
  | "regexp" => return .regexp value
  | "interpolated_regexp" => return .interpolated .regexp (← l "items")
  | "array" => return .array (← l "items")
  | "hash" => return .hash (← l "items")
  | "assoc" => return .assoc (← n "key") (← n "value")
  | "assoc_splat" => return .assocSplat (← o "body")
  | "splat" => return .splat (← o "body")
  | "range" => return .range (← o "left") (← o "right") (j.flag "exclusive" false)
  | "var_read" => return .varRead var name
  | "var_write" => return .varWrite var name (← n "value")
  | "var_target" => return .varTarget var name
  | "var_op_write" => return .varOpWrite var name (j.text "operator") (← n "value")
  | "var_or_write" => return .varOrWrite var name (← n "value")
  | "var_and_write" => return .varAndWrite var name (← n "value")
  | "const_read" => return .constRead name
  | "const_path" => return .constPath (← o "parent") name
  | "const_write" => return .constWrite name (← n "value")
  | "const_target" => return .constTarget name
  | "call" =>
    let args ←
      if (j.field "args").present?.isSome then
        (l "args").map fun items => some (ofKind (.arguments items))
      else o "arguments"
    return .call (← o "receiver") (operator? (j.text "operator")) name args (← o "block")
      (j.flag "parenthesized" false)
  | "arguments" => return .arguments (← l "items")
  | "keyword_hash" => return .keywordHash (← l "items")
  | "block_argument" => return .blockArgument (← o "body")
  | "block" => return .block params (← o "body")
  | "lambda" => return .lambda params (← o "body")
  | "if" => return .ifThen (← n "predicate") (← o "statements") (← o "subsequent")
  | "unless" => return .unlessThen (← n "predicate") (← o "statements") (← o "else")
  | "else" => return .otherwise (← o "body")
  | "case" => return .caseOf (← o "predicate") (← l "conditions") (← o "else")
  | "when" => return .whenClause (← l "conditions") (← o "statements")
  | "while" => return .whileLoop (← n "predicate") (← o "statements")
  | "until" => return .untilLoop (← n "predicate") (← o "statements")
  | "for" => return .forLoop (← n "index") (← n "collection") (← o "statements")
  | "and" => return .and (← n "left") (← n "right")
  | "or" => return .or (← n "left") (← n "right")
  | "return" => return .jump .toReturn (← o "body")
  | "break" => return .jump .toBreak (← o "body")
  | "next" => return .jump .toNext (← o "body")
  | "begin" => return .beginBlock (← o "statements") (← o "rescue") (← o "else") (← o "ensure")
  | "rescue" =>
    return .rescue (← l "exceptions") (← o "reference") (← o "statements") (← o "subsequent")
  | "rescue_modifier" => return .rescueModifier (← n "expression") (← n "rescue")
  | "def" => return .methodDef name (← o "receiver") params (← o "body")
  | "class" => return .classDef (← n "path") (← o "superclass") (← o "body")
  | "module" => return .moduleDef (← n "path") (← o "body")
  | "multi_write" => return .multiWrite (← l "targets") (← n "value")
  | "defined" => return .defined (← n "body")
  | "yield" => return .yield (← o "body")
  | "super" => return .super (← o "body")
  | "missing" => return .missing
  | _ => none

def built? (node? : Json → Option Node) (f : String) (args : List Json) : Option Node := do
  let a := fun i => args.getD i .null
  let s := fun i => (a i).string?.getD ""
  let n := fun i => node? (a i)
  let o := fun i => (a i).present?.mapM node?
  let l := fun i => (a i).items.mapM node?
  let lo := fun i => (a i).present?.mapM fun v => v.items.mapM node?
  let ps := fun i => (a i).items.mapM fun p => do return (← node? (p.item 0), ← node? (p.item 1))
  let ss := fun i => (a i).items.filterMap Json.string?
  let k := ofKind
  let var := varKind (s 0)
  match f with
  | "program" => return .program (← l 0)
  | "stmts" => return .statements (← l 0)
  | "parens" => return .parens (← n 0)
  | "nil" => return k .nil
  | "true" => return k (.bool true)
  | "false" => return k (.bool false)
  | "self" => return k .self
  | "int" => return k (.integer ((a 0).whole?.getD 0))
  | "float" => return k (.float (floatOf (s 0)))
  | "string" => return k (.string (s 0) true)
  | "open_string" => return k (.string (s 0) false)
  | "sym" => return k (.symbol (s 0) false)
  | "regexp" => return k (.regexp (s 0))
  | "array" => return k (.array (← l 0))
  | "hash" => return .hash (← ps 0)
  | "assoc" => return .assoc (← n 0, ← n 1)
  | "keyword_hash" => return .keywordHash (← ps 0)
  | "splat" => return k (.splat (some (← n 0)))
  | "range" => return k (.range (some (← n 0)) (some (← n 1)) false)
  | "var" => return k (.varRead var (s 1))
  | "lvar" => return k (.varRead .lvar (s 0))
  | "ivar" => return k (.varRead .ivar (s 0))
  | "cvar" => return k (.varRead .cvar (s 0))
  | "gvar" => return k (.varRead .gvar (s 0))
  | "var_write" => return k (.varWrite var (s 1) (← n 2))
  | "lvar_write" => return k (.varWrite .lvar (s 0) (← n 1))
  | "ivar_write" => return k (.varWrite .ivar (s 0) (← n 1))
  | "lvar_target" => return .localTarget (s 0)
  | "or_write" => return k (.varOrWrite var (s 1) (← n 2))
  | "op_write" => return k (.varOpWrite var (s 1) (s 2) (← n 3))
  | "multi_write" => return k (.multiWrite (← l 0) (← n 1))
  | "const" => return k (.constRead (s 0))
  | "const_path" => return k (.constPath (← o 0) (s 1))
  | "const_write" => return k (.constWrite (s 0) (← n 1))
  | "call" => return .call (← o 0) ((operator? (s 1)).getD .dot) (s 2) (← l 3)
  | "send" => return .call (some (← n 0)) .dot (s 1) (← l 2)
  | "fcall" => return .call none .dot (s 0) (← l 1)
  | "command" => return .command (s 0) (← l 1)
  | "ident" => return .call none .dot (s 0) []
  | "with_block" => return (← n 0).withBlock (← n 1)
  | "block" => return .block (ss 0) (← l 1)
  | "block_arg" => return k (.blockArgument (some (← n 0)))
  | "lambda" => return .lambda (ss 0) (← l 1)
  | "if" => return .ifThen (← n 0) (← l 1) (← lo 2)
  | "unless" => return .unlessThen (← n 0) (← l 1)
  | "case" =>
    let clauses ← (a 1).items.mapM fun p => do
      return (← (p.item 0).items.mapM node?, ← (p.item 1).items.mapM node?)
    return .caseOf (← o 0) clauses (← lo 2)
  | "while" => return k (.whileLoop (← n 0) (Node.bodyOf (← l 1)))
  | "until" => return k (.untilLoop (← n 0) (Node.bodyOf (← l 1)))
  | "for" => return .forLoop (s 0) (← n 1) (← l 2)
  | "and" => return k (.and (← n 0) (← n 1))
  | "or" => return k (.or (← n 0) (← n 1))
  | "break" => return .jump .toBreak (← o 0)
  | "next" => return .jump .toNext (← o 0)
  | "return" => return .jump .toReturn (← o 0)
  | "begin" => return .beginBlock (← l 0) (← o 1) (← lo 2)
  | "begin_else" => return .beginElse (← l 0) (← n 1) (← l 2)
  | "rescue" => return .rescue (← l 0) (a 1).string? (← l 2)
  | "rescue_modifier" => return k (.rescueModifier (← n 0) (← n 1))
  | "def" => return .methodDef (s 0) none (ss 1) (← l 2)
  | "def_self" => return .methodDef (s 0) (some (k .self)) (ss 1) (← l 2)
  | "class" => return .classDef (s 0) (← o 1) (← l 2)
  | "module" => return .moduleDef (s 0) (← l 1)
  | "yield" => return k (.yield (Node.argumentsOf (← l 0)))
  | "missing" => return k .missing
  | _ => none

/-- A node written with at most `height` arrays and objects inside each other. -/
def decodeWithin : Nat → Json → Option Node
  | 0, _ => none
  | height + 1, j =>
    let node? := decodeWithin height
    match j with
    | .array (.string f :: args) => built? node? f args
    | .array items => statements <$> items.mapM node?
    | .object _ =>
      if j.text "n" = "parens_times" then
        parensTimes ((j.field "times").whole?.getD 0).toNat <$> node? (j.field "body")
      else
        let span : Span := match (j.list "range").filterMap Json.whole? with
          | [start, stop] => ⟨start.toNat, stop.toNat⟩
          | _ => {}
        mk span 0 <$> kindOf? node? j
    | _ => none

def decode? (j : Json) : Option Node := decodeWithin (j.nesting + 1) j

end Node

end FlowCompletion
