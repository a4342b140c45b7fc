import FlowCompletion.Json.Basic

namespace FlowCompletion

namespace Json

def hexDigit (n : Nat) : Char := (Nat.toDigits 16 n).headD '0'

def escapedChar (c : Char) : List Char :=
  if c = '"' then ['\\', '"']
  else if c = '\\' then ['\\', '\\']
  else if c = '\n' then ['\\', 'n']
  else if c = '\r' then ['\\', 'r']
  else if c = '\t' then ['\\', 't']
  else if c.toNat < 32 then ['\\', 'u', '0', '0', hexDigit (c.toNat / 16), hexDigit (c.toNat % 16)]
  else [c]

def quoted (s : String) : String :=
  String.ofList ('"' :: s.toList.flatMap escapedChar ++ ['"'])

end Json

def JsonNumber.text : JsonNumber → String
  | .whole i => toString i
  | .real x => x.text

mutual

def Json.render : Json → String
  | .null => "null"
  | .bool b => if b then "true" else "false"
  | .number n => n.text
  | .string s => Json.quoted s
  | .array items => "[" ++ ",".intercalate (Json.itemTexts items) ++ "]"
  | .object fields => "\x7b" ++ ",".intercalate (Json.fieldTexts fields) ++ "\x7d"
  | .unreadable => "null"

def Json.itemTexts : List Json → List String
  | [] => []
  | item :: rest => item.render :: Json.itemTexts rest

def Json.fieldTexts : List (String × Json) → List String
  | [] => []
  | field :: rest => (Json.quoted field.1 ++ ":" ++ field.2.render) :: Json.fieldTexts rest

end

end FlowCompletion
