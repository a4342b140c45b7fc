import FlowCompletion.Text.Printable

namespace FlowCompletion

def numberedEscape (c : Char) : List Char :=
  ['\\', 'u', '\x7b'] ++ Nat.toDigits 16 c.toNat ++ ['\x7d']

def escapedForm (c : Char) : List Char :=
  if c.toNat = 0 then ['\\', '0']
  else if c = '\t' then ['\\', 't']
  else if c = '\r' then ['\\', 'r']
  else if c = '\n' then ['\\', 'n']
  else if c = '\\' then ['\\', '\\']
  else if c = '"' then ['\\', '"']
  else if isShown c then [c]
  else numberedEscape c

def quotedText (text : String) : String :=
  String.ofList ('"' :: text.toList.flatMap escapedForm ++ ['"'])

end FlowCompletion
