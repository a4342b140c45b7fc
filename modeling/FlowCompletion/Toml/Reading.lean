import FlowCompletion.Json.Reading
import FlowCompletion.Toml.Basic

namespace FlowCompletion

namespace Toml

def isBlank (c : Char) : Bool := c = ' ' || c = '\t'

def skipBlank (cs : List Char) : List Char := cs.dropWhile isBlank

def isAllowed (c : Char) : Bool := c = '\t' || (32 ≤ c.toNat && c.toNat ≠ 127)

def newline? : List Char → Option (List Char)
  | '\n' :: rest => some rest
  | '\r' :: '\n' :: rest => some rest
  | _ => none

def skipComment : List Char → List Char
  | '#' :: rest => rest.dropWhile isAllowed
  | cs => cs

def skipLines (fuel : Nat) (cs : List Char) : List Char :=
  match fuel with
  | 0 => cs
  | fuel + 1 =>
    let cs := skipComment (skipBlank cs)
    match newline? cs with
    | some rest => skipLines fuel rest
    | none => cs

def readCode (digits : Nat) (cs : List Char) : Option (Char × List Char) := do
  guard (digits ≤ cs.length)
  let code ← (cs.take digits).foldlM (fun n c => (Json.hexValue? c).map (16 * n + ·)) 0
  guard (code < 0xD800 ∨ (0xE000 ≤ code ∧ code < 0x110000))
  some (Char.ofNat code, cs.drop digits)

def readEscape : List Char → Option (Char × List Char)
  | 'u' :: rest => readCode 4 rest
  | 'U' :: rest => readCode 8 rest
  | '/' :: _ => none
  | c :: rest => (List.lookup c Json.escapes).map (·, rest)
  | [] => none

def readBasic (fuel : Nat) (cs : List Char) : Option (List Char × List Char) :=
  match fuel, cs with
  | _ + 1, '"' :: rest => some ([], rest)
  | fuel + 1, '\\' :: rest => do
    let (c, rest) ← readEscape rest
    let (chars, rest) ← readBasic fuel rest
    some (c :: chars, rest)
  | fuel + 1, c :: rest =>
    if isAllowed c then (readBasic fuel rest).map fun (chars, rest) => (c :: chars, rest) else none
  | _, _ => none

def readPlain (cs : List Char) : Option (List Char × List Char) :=
  let isInside := fun c => c ≠ '\'' && isAllowed c
  match cs.dropWhile isInside with
  | '\'' :: rest => some (cs.takeWhile isInside, rest)
  | _ => none

/-- Three quotes end a text of several lines; up to two more belong to it. -/
def closing? (quote : Char) (cs : List Char) : Option (List Char × List Char) :=
  let quotes := cs.takeWhile (· = quote)
  if quotes.length < 3 then none
  else
    let extra := min (quotes.length - 3) 2
    some (List.replicate extra quote, cs.drop (extra + 3))

def skipRoom : List Char → List Char
  | '\r' :: '\n' :: rest => skipRoom rest
  | c :: rest => if isBlank c || c = '\n' then skipRoom rest else c :: rest
  | [] => []

/-- A line end after a backslash, with all the room around it. -/
def continuation? (cs : List Char) : Option (List Char) :=
  (newline? (skipBlank cs)).map skipRoom

def readLong (quote : Char) (fuel : Nat) (cs : List Char) : Option (List Char × List Char) :=
  match fuel with
  | 0 => none
  | fuel + 1 =>
    match closing? quote cs with
    | some found => some found
    | none =>
      let after := fun (c : Char) (rest : List Char) =>
        (readLong quote fuel rest).map fun (chars, rest) => (c :: chars, rest)
      match newline? cs, cs with
      | some rest, _ => after '\n' rest
      | none, [] => none
      | none, c :: rest =>
        if c = '\\' ∧ quote = '"' then
          match continuation? rest with
          | some rest => readLong quote fuel rest
          | none => (readEscape rest).bind fun (c, rest) => after c rest
        else if isAllowed c then after c rest
        else none

def readText (cs : List Char) : Option (String × List Char) :=
  let long := fun (quote : Char) (rest : List Char) =>
    readLong quote (rest.length + 1) ((newline? rest).getD rest)
  let found := match cs with
    | '"' :: '"' :: '"' :: rest => long '"' rest
    | '\'' :: '\'' :: '\'' :: rest => long '\'' rest
    | '"' :: rest => readBasic (rest.length + 1) rest
    | '\'' :: rest => readPlain rest
    | _ => none
  found.map fun (chars, rest) => (String.ofList chars, rest)

def digitValue? (base : Nat) (c : Char) : Option Nat :=
  (Json.hexValue? c).filter (· < base)

def readDigits (base value : Nat) : List Char → Nat × List Char
  | '_' :: c :: rest =>
    match digitValue? base c with
    | some d => readDigits base (base * value + d) rest
    | none => (value, '_' :: c :: rest)
  | c :: rest =>
    match digitValue? base c with
    | some d => readDigits base (base * value + d) rest
    | none => (value, c :: rest)
  | [] => (value, [])

def readBased (base : Nat) : List Char → Option (Nat × List Char)
  | c :: rest => (digitValue? base c).map fun d => readDigits base d rest
  | [] => none

/-- A number without a sign may be written to another base; no other number starts with a zero. -/
def readInteger (cs : List Char) : Option (Toml × List Char) := do
  let (negative, signed, cs) := match cs with
    | '-' :: cs => (true, true, cs)
    | '+' :: cs => (false, true, cs)
    | cs => (false, false, cs)
  let (value, rest) ← match signed, cs with
    | false, '0' :: 'x' :: rest => readBased 16 rest
    | false, '0' :: 'o' :: rest => readBased 8 rest
    | false, '0' :: 'b' :: rest => readBased 2 rest
    | _, '0' :: rest => some (0, rest)
    | _, cs => readBased 10 cs
  let value : Int := if negative then - (value : Int) else value
  guard (- 0x8000000000000000 ≤ value ∧ value < 0x8000000000000000)
  some (.integer value, rest)

mutual

def readValue (fuel : Nat) (cs : List Char) : Option (Toml × List Char) :=
  match fuel with
  | 0 => none
  | fuel + 1 =>
    match cs with
    | '[' :: rest => (readItems fuel rest).map fun (items, rest) => (.array items, rest)
    | '"' :: _ | '\'' :: _ => (readText cs).map fun (s, rest) => (.string s, rest)
    | 't' :: 'r' :: 'u' :: 'e' :: rest => some (.boolean true, rest)
    | 'f' :: 'a' :: 'l' :: 's' :: 'e' :: rest => some (.boolean false, rest)
    | cs => readInteger cs

def readItems (fuel : Nat) (cs : List Char) : Option (List Toml × List Char) :=
  match fuel with
  | 0 => none
  | fuel + 1 =>
    match skipLines (cs.length + 1) cs with
    | ']' :: rest => some ([], rest)
    | cs =>
      match readValue fuel cs with
      | none => none
      | some (item, rest) =>
        match skipLines (rest.length + 1) rest with
        | ',' :: rest => (readItems fuel rest).map fun (items, rest) => (item :: items, rest)
        | ']' :: rest => some ([item], rest)
        | _ => none

end

def isBareKey (c : Char) : Bool := c.isAlphanum || c = '_' || c = '-'

def readKey (cs : List Char) : Option (String × List Char) :=
  match cs with
  | '"' :: rest => (readBasic (rest.length + 1) rest).map fun (s, rest) => (String.ofList s, rest)
  | '\'' :: rest => (readPlain rest).map fun (s, rest) => (String.ofList s, rest)
  | cs =>
    let word := cs.takeWhile isBareKey
    if word.isEmpty then none else some (String.ofList word, cs.drop word.length)

def readEntry (cs : List Char) : Option ((String × Toml) × List Char) := do
  let (key, rest) ← readKey cs
  match skipBlank rest with
  | '=' :: rest =>
    let rest := skipBlank rest
    let (value, rest) ← readValue (2 * rest.length + 2) rest
    some ((key, value), rest)
  | _ => none

def readEntries (fuel : Nat) (cs : List Char) : Option (List (String × Toml)) :=
  match fuel with
  | 0 => none
  | fuel + 1 =>
    match skipLines (cs.length + 1) cs with
    | [] => some []
    | cs =>
      match readEntry cs with
      | none => none
      | some (entry, rest) =>
        match skipComment (skipBlank rest) with
        | [] => some [entry]
        | rest => match newline? rest with
          | some rest => (readEntries fuel rest).map (entry :: ·)
          | none => none

def read? (text : String) : Option (List (String × Toml)) :=
  let cs := match text.toList with
    | c :: rest => if c.toNat = 0xFEFF then rest else c :: rest
    | [] => []
  readEntries (cs.length + 1) cs

end Toml

end FlowCompletion
