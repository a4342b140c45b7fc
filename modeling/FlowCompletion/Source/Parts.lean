import FlowCompletion.Binary64.Shortest
import FlowCompletion.Source.Node

namespace FlowCompletion

/-- A node is written in whole, except that a condition following another one starts with `elsif`
and leaves the end to it, and that text inside an interpolation has no quotes of its own. -/
inductive Form where
  | whole
  | elsif
  | bare
deriving DecidableEq, Inhabited

inductive Part where
  | text (s : String)
  | node (form : Form) (n : Node)

def Parameters.text (p : Parameters) : String :=
  ", ".intercalate (p.required ++ p.optional.map (· ++ " = nil") ++ p.rest.toList.map ("*" ++ ·) ++
    p.post ++ p.keywords.map (· ++ ": nil") ++ p.keywordRest.toList.map ("**" ++ ·) ++
    p.block.toList.map ("&" ++ ·))

namespace Part

def whole (n : Node) : Part := .node .whole n

def optional (n : Option Node) : List Part := n.toList.map whole

def body (n : Option Node) : List Part :=
  match n with
  | none => []
  | some n => [whole n, .text "\n"]

def separated (separator : String) : List Node → List Part
  | [] => []
  | [n] => [whole n]
  | n :: rest => whole n :: .text separator :: separated separator rest

def interpolated (parts : List Node) : List Part :=
  parts.flatMap fun n =>
    match n.kind with
    | .string _ _ => [.node .bare n]
    | _ => [.text "#\x7b", whole n, .text "\x7d"]

def keyword (word opening closing : String) (arguments : Option Node) : List Part :=
  match arguments with
  | none => [.text word]
  | some n => [.text (word ++ opening), whole n, .text closing]

def ifClause (word : String) (predicate : Node) (statements subsequent : Option Node) : List Part :=
  [.text (word ++ " "), whole predicate, .text "\n"] ++ body statements ++
    match subsequent with
    | none => []
    | some n => [.node (if n.isIf then .elsif else .whole) n]

def call (receiver : Option Node) (operator : Option CallOperator) (name : String)
    (arguments block : Option Node) (parenthesized : Bool) : List Part :=
  let inside := block.any Node.isBlockArgument
  let hasArguments := arguments.isSome || inside
  let opening := if parenthesized then "(" else if hasArguments then " " else ""
  (match receiver with
    | none => []
    | some n => [whole n, .text (operator.elim "." CallOperator.text)]) ++
  [.text (name ++ opening)] ++ optional arguments ++
  (if inside && arguments.isSome then [.text ", "] else []) ++
  (if inside then optional block else []) ++
  (if parenthesized then [.text ")"] else []) ++
  (if inside then [] else if block.isSome then .text " " :: optional block else [])

def node? : Part → Option Node
  | .text _ => none
  | .node _ n => some n

def ofKind : NodeKind → List Part
  | .program n => [whole n]
  | .statements items => separated "\n" items
  | .parentheses inner => [.text "("] ++ optional inner ++ [.text ")"]
  | .nil => [.text "nil"]
  | .bool value => [.text (if value then "true" else "false")]
  | .self => [.text "self"]
  | .integer value => [.text (toString value)]
  | .float value => [.text value.text]
  | .rational digits => [.text (digits ++ "r")]
  | .imaginary digits => [.text (digits ++ "i")]
  | .string content closed => [.text ("\"" ++ content ++ if closed then "\"" else "")]
  | .shell command => [.text ("`" ++ command ++ "`")]
  | .symbol value closed => [.text (if closed then ":\"" ++ value ++ "\"" else ":" ++ value)]
  | .regexp source => [.text ("/" ++ source ++ "/")]
  | .interpolated .string ns => [.text "\""] ++ interpolated ns ++ [.text "\""]
  | .interpolated .symbol ns => [.text ":\""] ++ interpolated ns ++ [.text "\""]
  | .interpolated .regexp ns => [.text "/"] ++ interpolated ns ++ [.text "/"]
  | .array items => [.text "["] ++ separated ", " items ++ [.text "]"]
  | .hash items => [.text "\x7b"] ++ separated ", " items ++ [.text "\x7d"]
  | .assoc key value => [whole key, .text " => ", whole value]
  | .assocSplat inner => .text "**" :: optional inner
  | .splat inner => .text "*" :: optional inner
  | .range left right exclusive =>
    optional left ++ [.text (if exclusive then "..." else "..")] ++ optional right
  | .varRead _ name => [.text name]
  | .varTarget _ name => [.text name]
  | .constRead name => [.text name]
  | .constTarget name => [.text name]
  | .varWrite _ name value => [.text (name ++ " = "), whole value]
  | .constWrite name value => [.text (name ++ " = "), whole value]
  | .varOpWrite _ name operator value => [.text (name ++ " " ++ operator ++ "= "), whole value]
  | .varOrWrite _ name value => [.text (name ++ " ||= "), whole value]
  | .varAndWrite _ name value => [.text (name ++ " &&= "), whole value]
  | .constPath parent name => optional parent ++ [.text ("::" ++ name)]
  | .call receiver operator name arguments block parenthesized =>
    call receiver operator name arguments block parenthesized
  | .arguments items => separated ", " items
  | .keywordHash items => separated ", " items
  | .blockArgument inner => .text "&" :: optional inner
  | .block params n =>
    let bars := if params.isEmpty then "" else " |" ++ params.text ++ "|"
    [.text ("\x7b" ++ bars ++ "\n")] ++ body n ++ [.text "\x7d"]
  | .lambda params n => [.text ("->(" ++ params.text ++ ") \x7b\n")] ++ body n ++ [.text "\x7d"]
  | .ifThen predicate n subsequent => ifClause "if" predicate n subsequent ++ [.text "end"]
  | .unlessThen predicate n otherwise =>
    [.text "unless ", whole predicate, .text "\n"] ++ body n ++ optional otherwise ++ [.text "end"]
  | .otherwise n => .text "else\n" :: body n
  | .caseOf subject conditions otherwise =>
    (match subject with
      | none => [.text "case\n"]
      | some n => [.text "case ", whole n, .text "\n"]) ++
    conditions.map whole ++ optional otherwise ++ [.text "end"]
  | .whenClause conditions n =>
    [.text "when "] ++ separated ", " conditions ++ [.text "\n"] ++ body n
  | .whileLoop predicate n =>
    [.text "while ", whole predicate, .text "\n"] ++ body n ++ [.text "end"]
  | .untilLoop predicate n =>
    [.text "until ", whole predicate, .text "\n"] ++ body n ++ [.text "end"]
  | .forLoop index collection n =>
    [.text "for ", whole index, .text " in ", whole collection, .text "\n"] ++ body n ++
      [.text "end"]
  | .and left right => [whole left, .text " && ", whole right]
  | .or left right => [whole left, .text " || ", whole right]
  | .jump .toReturn value => keyword "return" " " "" value
  | .jump .toBreak value => keyword "break" " " "" value
  | .jump .toNext value => keyword "next" " " "" value
  | .beginBlock n rescue otherwise ensure =>
    [.text "begin\n"] ++ body n ++ optional rescue ++ optional otherwise ++
    (match ensure with
      | none => []
      | some n => [.text "ensure\n", whole n, .text "\n"]) ++
    [.text "end"]
  | .rescue exceptions reference n subsequent =>
    [.text (if exceptions.isEmpty then "rescue" else "rescue ")] ++ separated ", " exceptions ++
    (match reference with
      | none => []
      | some n => [.text " => ", whole n]) ++
    [.text "\n"] ++ body n ++ optional subsequent
  | .rescueModifier expression fallback => [whole expression, .text " rescue ", whole fallback]
  | .methodDef name receiver params n =>
    [.text "def "] ++
    (match receiver with
      | none => []
      | some n => [whole n, .text "."]) ++
    [.text (name ++ "(" ++ params.text ++ ")\n")] ++ body n ++ [.text "end"]
  | .classDef path superclass n =>
    [.text "class ", whole path] ++
    (match superclass with
      | none => []
      | some n => [.text " < ", whole n]) ++
    [.text "\n"] ++ body n ++ [.text "end"]
  | .moduleDef path n => [.text "module ", whole path, .text "\n"] ++ body n ++ [.text "end"]
  | .multiWrite targets value => separated ", " targets ++ [.text " = ", whole value]
  | .defined inner => [.text "defined?(", whole inner, .text ")"]
  | .yield arguments => keyword "yield" "(" ")" arguments
  | .super arguments => keyword "super" "(" ")" arguments
  | .missing => []

end Part

namespace Node

def parts (form : Form) (n : Node) : List Part :=
  match form, n.kind with
  | .elsif, .ifThen predicate body subsequent => Part.ifClause "elsif" predicate body subsequent
  | .bare, .string content _ => [.text content]
  | _, kind => Part.ofKind kind

def children (n : Node) : List Node :=
  (Part.ofKind n.kind).filterMap Part.node?

end Node

end FlowCompletion
