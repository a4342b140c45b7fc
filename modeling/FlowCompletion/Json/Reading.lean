import FlowCompletion.Json.Basic
import FlowCompletion.Binary64.Reading

namespace FlowCompletion

namespace JsonNumber

/-- What a mantissa of 64 bits holds of the digits of a number: digits that do not fit any more
are dropped, and those before the point count as powers of ten. -/
structure Mantissa where
  value : Nat
  power : Int

def Mantissa.pushWhole (m : Mantissa) (c : Char) : Mantissa :=
  let next := 10 * m.value + (c.toNat - 48)
  if m.power = 0 ∧ next < 0x10000000000000000 then ⟨next, 0⟩ else ⟨m.value, m.power + 1⟩

def Mantissa.pushPlaces (m : Mantissa) : List Char → Mantissa
  | [] => m
  | c :: cs =>
    let next := 10 * m.value + (c.toNat - 48)
    if next < 0x10000000000000000 then Mantissa.pushPlaces ⟨next, m.power - 1⟩ cs else m

/-- The mantissa times its power of ten, one rounding for each step of the scale; `none` where the
number is too large. -/
def scaleUp? (f : Binary64) (power : Nat) : Option Binary64 :=
  if f = Binary64.zero false then some f
  else if 308 < power then none
  else
    let product := f.mul (Binary64.ofDecimal false 1 power)
    if product.isInfinite then none else some product

def scaleDown (fuel : Nat) (f : Binary64) (power : Nat) : Binary64 :=
  match fuel with
  | 0 => f
  | fuel + 1 =>
    if f = Binary64.zero false then f
    else if power ≤ 308 then f.div (Binary64.ofDecimal false 1 power)
    else scaleDown fuel (f.div (Binary64.ofDecimal false 1 308)) (power - 308)

def Mantissa.toBinary64? (m : Mantissa) : Option Binary64 :=
  let f := Binary64.ofRatio false m.value 1
  match m.power with
  | .ofNat p => scaleUp? f p
  | .negSucc p => some (scaleDown (p + 2) f (p + 1))

/-- The number written by a sign, whole digits, decimal places and a power of ten. Without places
and power it is whole if it fits 64 bits; a negative zero does not. -/
def ofParts (negative : Bool) (digits places : List Char) (power : Option Int) :
    Option JsonNumber :=
  let value := digitsValue digits
  let isWhole := places.isEmpty ∧ power.isNone
  if isWhole ∧ ¬ negative ∧ value < 0x10000000000000000 then some (.whole value)
  else if isWhole ∧ negative ∧ 0 < value ∧ value ≤ 0x8000000000000000 then
    some (.whole (- (value : Int)))
  else
    let m := (digits.foldl Mantissa.pushWhole ⟨0, 0⟩).pushPlaces places
    let m := { m with power := m.power + power.getD 0 }
    m.toBinary64?.map fun x => .real (if negative then x.negate else x)

end JsonNumber

namespace Json

def isBlank (c : Char) : Bool :=
  c = ' ' || c = '\n' || c = '\t' || c = '\r'

def skipBlank (cs : List Char) : List Char := cs.dropWhile isBlank

def readWord (word : String) (value : Json) (cs : List Char) : Option (Json × List Char) :=
  if word.toList.isPrefixOf cs then some (value, cs.drop word.length) else none

def readPower (cs : List Char) : Option (Option Int × List Char) :=
  match cs with
  | [] => some (none, [])
  | c :: rest =>
    if c = 'e' ∨ c = 'E' then
      let (negative, rest) := splitSign rest
      let (digits, rest) := splitDigits rest
      if digits.isEmpty then none
      else
        let value : Int := digitsValue digits
        some (some (if negative then - value else value), rest)
    else some (none, cs)

def readNumber (cs : List Char) : Option (Json × List Char) := do
  let (negative, cs) := match cs with
    | '-' :: cs => (true, cs)
    | cs => (false, cs)
  let (digits, cs) := splitDigits cs
  guard (digits ≠ [] ∧ (digits.head? = some '0' → digits.length = 1))
  let (places, cs) ← match cs with
    | '.' :: cs =>
      let (places, cs) := splitDigits cs
      if places.isEmpty then none else some (places, cs)
    | cs => some ([], cs)
  let (power, cs) ← readPower cs
  let value := (JsonNumber.ofParts negative digits places power).map Json.number
  some (value.getD .unreadable, cs)

def hexValue? (c : Char) : Option Nat :=
  if c.isDigit then some (c.toNat - 48)
  else if 'a' ≤ c ∧ c ≤ 'f' then some (c.toNat - 87)
  else if 'A' ≤ c ∧ c ≤ 'F' then some (c.toNat - 55)
  else none

def readHex4 : List Char → Option (Nat × List Char)
  | a :: b :: c :: d :: rest => do
    let a ← hexValue? a
    let b ← hexValue? b
    let c ← hexValue? c
    let d ← hexValue? d
    some (((a * 16 + b) * 16 + c) * 16 + d, rest)
  | _ => none

def escapes : List (Char × Char) :=
  [('"', '"'), ('\\', '\\'), ('/', '/'), ('b', Char.ofNat 8), ('f', Char.ofNat 12), ('n', '\n'),
    ('r', '\r'), ('t', '\t')]

/-- The character of one escape after its backslash, or none of an unpaired surrogate. -/
def readEscape (cs : List Char) : Option (Option Char × List Char) :=
  match cs with
  | 'u' :: rest => do
    let (high, rest) ← readHex4 rest
    if 0xDC00 ≤ high ∧ high < 0xE000 then some (none, rest)
    else if high < 0xD800 ∨ 0xE000 ≤ high then some (some (Char.ofNat high), rest)
    else match rest with
      | '\\' :: 'u' :: tail => do
        let (low, tail) ← readHex4 tail
        if 0xDC00 ≤ low ∧ low < 0xE000 then
          some (some (Char.ofNat (0x10000 + (high - 0xD800) * 1024 + (low - 0xDC00))), tail)
        else some (none, rest)
      | _ => some (none, rest)
  | c :: rest => (List.lookup c escapes).map fun e => (some e, rest)
  | [] => none

def readChars (fuel : Nat) (cs : List Char) : Option (List Char × Bool × List Char) :=
  match fuel, cs with
  | _ + 1, '"' :: rest => some ([], true, rest)
  | fuel + 1, '\\' :: rest => do
    let (c, rest) ← readEscape rest
    let (chars, good, rest) ← readChars fuel rest
    some (c.toList ++ chars, good && c.isSome, rest)
  | fuel + 1, c :: rest =>
    if c.toNat < 32 then none
    else (readChars fuel rest).map fun (chars, good, rest) => (c :: chars, good, rest)
  | _, _ => none

def readString (cs : List Char) : Option (Json × List Char) :=
  (readChars (cs.length + 1) cs).map fun (chars, good, rest) =>
    (if good then .string (String.ofList chars) else .unreadable, rest)

mutual

def readValue (fuel : Nat) (cs : List Char) : Option (Json × List Char) :=
  match fuel with
  | 0 => none
  | fuel + 1 =>
    match skipBlank cs with
    | '\x7b' :: rest =>
      match skipBlank rest with
      | '\x7d' :: rest => some (.object [], rest)
      | rest => (readFields fuel rest).map fun (fields, rest) =>
        (fields.elim .unreadable .object, rest)
    | '[' :: rest =>
      match skipBlank rest with
      | ']' :: rest => some (.array [], rest)
      | rest => (readItems fuel rest).map fun (items, rest) => (.array items, rest)
    | '"' :: rest => readString rest
    | 't' :: rest => readWord "rue" (.bool true) rest
    | 'f' :: rest => readWord "alse" (.bool false) rest
    | 'n' :: rest => readWord "ull" .null rest
    | rest => readNumber rest

def readItems (fuel : Nat) (cs : List Char) : Option (List Json × List Char) :=
  match fuel with
  | 0 => none
  | fuel + 1 =>
    match readValue fuel cs with
    | none => none
    | some (item, rest) =>
      match skipBlank rest with
      | ',' :: rest => (readItems fuel rest).map fun (items, rest) => (item :: items, rest)
      | ']' :: rest => some ([item], rest)
      | _ => none

def readFields (fuel : Nat) (cs : List Char) : Option (Option (List (String × Json)) × List Char) :=
  match fuel with
  | 0 => none
  | fuel + 1 =>
    match skipBlank cs with
    | '"' :: rest =>
      match readString rest with
      | none => none
      | some (name, rest) =>
        match skipBlank rest with
        | ':' :: rest =>
          match readValue fuel rest with
          | none => none
          | some (value, rest) =>
            let field := name.string?.map fun name => (name, value)
            match skipBlank rest with
            | ',' :: rest => (readFields fuel rest).map fun (fields, rest) =>
              (field.bind fun field => fields.map (field :: ·), rest)
            | '\x7d' :: rest => some (field.map ([·]), rest)
            | _ => none
        | _ => none
    | _ => none

end

def read? (text : String) : Option Json :=
  let cs := text.toList
  match readValue (2 * cs.length + 2) cs with
  | some (value, rest) => if (skipBlank rest).isEmpty then some value else none
  | none => none

end Json

end FlowCompletion
