import FlowCompletion.Source.Node

namespace FlowCompletion

namespace NodeKind

def word : NodeKind → String
  | .program _ => "program"
  | .statements _ => "statements"
  | .parentheses _ => "parentheses"
  | .nil => "nil"
  | .bool value => if value then "true" else "false"
  | .self => "self"
  | .integer _ => "integer"
  | .float _ => "float"
  | .rational _ => "rational"
  | .imaginary _ => "imaginary"
  | .string .. => "str"
  | .shell _ => "xstr"
  | .symbol .. => "symbol"
  | .regexp _ => "regexp"
  | .interpolated .string _ => "interpolated_str"
  | .interpolated .symbol _ => "interpolated_symbol"
  | .interpolated .regexp _ => "interpolated_regexp"
  | .array _ => "array"
  | .hash _ => "hash"
  | .assoc .. => "assoc"
  | .assocSplat _ => "assoc_splat"
  | .splat _ => "splat"
  | .range .. => "range"
  | .varRead .. => "var_read"
  | .varWrite .. => "var_write"
  | .varTarget .. => "var_target"
  | .varOpWrite .. => "var_op_write"
  | .varOrWrite .. => "var_or_write"
  | .varAndWrite .. => "var_and_write"
  | .constRead _ => "const_read"
  | .constPath .. => "const_path"
  | .constWrite .. => "const_write"
  | .constTarget _ => "const_target"
  | .call .. => "call"
  | .arguments _ => "arguments"
  | .keywordHash _ => "keyword_hash"
  | .blockArgument _ => "block_argument"
  | .block .. => "block"
  | .lambda .. => "lambda"
  | .ifThen .. => "if"
  | .unlessThen .. => "unless"
  | .otherwise _ => "else"
  | .caseOf .. => "case"
  | .whenClause .. => "when"
  | .whileLoop .. => "while"
  | .untilLoop .. => "until"
  | .forLoop .. => "for"
  | .and .. => "and"
  | .or .. => "or"
  | .jump .toReturn _ => "return"
  | .jump .toBreak _ => "break"
  | .jump .toNext _ => "next"
  | .beginBlock .. => "begin"
  | .rescue .. => "rescue"
  | .rescueModifier .. => "rescue_modifier"
  | .methodDef .. => "def"
  | .classDef .. => "class"
  | .moduleDef .. => "module"
  | .multiWrite .. => "multi_write"
  | .defined _ => "defined"
  | .yield _ => "yield"
  | .super _ => "super"
  | .missing => "missing"

def name? : NodeKind → Option String
  | .varRead _ name | .varWrite _ name _ | .varTarget _ name | .varOpWrite _ name _ _
  | .varOrWrite _ name _ | .varAndWrite _ name _ | .constRead name | .constPath _ name
  | .constWrite name _ | .constTarget name | .call _ _ name _ _ _
  | .methodDef name _ _ _ => some name
  | .symbol text _ | .rational text | .imaginary text | .shell text | .regexp text
  | .string text _ => some text
  | .integer value => some (toString value)
  | _ => none

end NodeKind

end FlowCompletion
