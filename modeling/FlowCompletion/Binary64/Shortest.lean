import FlowCompletion.Binary64.Basic

namespace FlowCompletion

structure Decimal where
  digits : Nat
  power : Int
deriving DecidableEq

namespace Decimal

def trimmed (d : Decimal) : Decimal :=
  go d.digits d
where
  go : Nat → Decimal → Decimal
    | 0, d => d
    | fuel + 1, d =>
      if d.digits ≠ 0 ∧ d.digits % 10 = 0 then go fuel ⟨d.digits / 10, d.power + 1⟩ else d

end Decimal

/-- The numbers that read back as one floating point number: from `low / den` to `high / den`,
with the ends or without. -/
structure ReadingInterval where
  value : Nat
  low : Nat
  high : Nat
  den : Nat
  closed : Bool

namespace ReadingInterval

/-- The neighbour below is half as far away where the mantissa is the smallest of its exponent. -/
def ofFinite (mantissa : Nat) (exponent : Int) : ReadingInterval :=
  let lowGap := if mantissa = 0x10000000000000 ∧ -1074 < exponent then 1 else 2
  let closed := mantissa % 2 = 0
  match exponent - 2 with
  | .ofNat e =>
    let unit := Nat.pow 2 e
    ⟨4 * mantissa * unit, (4 * mantissa - lowGap) * unit, (4 * mantissa + 2) * unit, 1, closed⟩
  | .negSucc e => ⟨4 * mantissa, 4 * mantissa - lowGap, 4 * mantissa + 2, Nat.pow 2 (e + 1), closed⟩

def scaled (n den : Nat) (power : Int) : Nat × Nat :=
  match power with
  | .ofNat p => (n, den * Nat.pow 10 p)
  | .negSucc p => (n * Nat.pow 10 (p + 1), den)

def holds (i : ReadingInterval) (digits : Nat) (power : Int) : Bool :=
  let (low, den) := scaled i.low i.den power
  let (high, _) := scaled i.high i.den power
  if i.closed then low ≤ digits * den && digits * den ≤ high
  else low < digits * den && digits * den < high

def leading (i : ReadingInterval) : Int :=
  let whole := i.value / i.den
  if 0 < whole then ((Nat.toDigits 10 whole).length : Int) - 1
  else
    let places := ((List.range 400).find? fun j => i.den ≤ i.value * Nat.pow 10 j).getD 0
    Int.negOfNat places

/-- The nearer of the value's two neighbours on a decimal grid, where one reads back. -/
def onGrid? (i : ReadingInterval) (power : Int) : Option Decimal :=
  let (n, den) := scaled i.value i.den power
  let below := n / den
  let upper := (2 * below + 1) * den ≤ 2 * n
  match i.holds below power, i.holds (below + 1) power with
  | true, true => some ⟨if upper then below + 1 else below, power⟩
  | true, false => some ⟨below, power⟩
  | false, true => some ⟨below + 1, power⟩
  | false, false => none

def shortest (i : ReadingInterval) : Decimal :=
  let grids := (List.range 17).map fun (n : Nat) => i.leading - (n : Int)
  (grids.findSome? i.onGrid?).getD ⟨i.value / i.den, 0⟩ |>.trimmed

end ReadingInterval

/-- Numbers from `10 ^ least` on and below `10 ^ most` are written with a point and at least one
place, all others with a power of ten. -/
structure FloatFormat where
  least : Int
  most : Int

namespace Decimal

def zeros (n : Nat) : String := String.ofList (List.replicate n '0')

def positional (d : Decimal) : String :=
  let digits := toString d.digits
  match d.power with
  | .ofNat p => digits ++ zeros p ++ ".0"
  | .negSucc p =>
    let places := p + 1
    if places < digits.length then
      let cs := digits.toList
      String.ofList (cs.take (cs.length - places)) ++ "." ++
        String.ofList (cs.drop (cs.length - places))
    else "0." ++ zeros (places - digits.length) ++ digits

def scientific (d : Decimal) : String :=
  let digits := (toString d.digits).toList
  let power := d.power + (digits.length : Int) - 1
  let fraction := if digits.length ≤ 1 then "" else "." ++ String.ofList (digits.drop 1)
  String.ofList (digits.take 1) ++ fraction ++ "e" ++ toString power

def text (format : FloatFormat) (d : Decimal) : String :=
  let lead := d.power + ((toString d.digits).length : Int) - 1
  if format.least ≤ lead ∧ lead < format.most then d.positional else d.scientific

end Decimal

namespace Binary64

def format : FloatFormat := ⟨-4, 16⟩

def text : Binary64 → String
  | .nan => "NaN"
  | .infinite negative => if negative then "-inf" else "inf"
  | .finite negative mantissa exponent =>
    let sign := if negative then "-" else ""
    if mantissa = 0 then sign ++ "0.0"
    else sign ++ (ReadingInterval.ofFinite mantissa exponent).shortest.text format

end Binary64

end FlowCompletion
