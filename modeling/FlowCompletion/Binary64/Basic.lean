
namespace FlowCompletion

/-- A finite number is `±mantissa · 2 ^ exponent`, with the mantissa below `2 ^ 53` and the exponent
as small as it can be, but never below `-1074`. -/
inductive Binary64 where
  | finite (negative : Bool) (mantissa : Nat) (exponent : Int)
  | infinite (negative : Bool)
  | nan
deriving DecidableEq, Inhabited

def roundedQuotient (num den : Nat) : Nat :=
  let quotient := num / den
  let twice := 2 * (num % den)
  if twice < den then quotient
  else if den < twice then quotient + 1
  else quotient + quotient % 2

def inUnits (num den : Nat) (exponent : Int) : Nat × Nat :=
  match exponent with
  | .ofNat e => (num, den * Nat.pow 2 e)
  | .negSucc e => (num * Nat.pow 2 (e + 1), den)

namespace Binary64

def zero (negative : Bool) : Binary64 := .finite negative 0 (-1074)

/-- The exponent at which the quotient has a mantissa of 53 bits, if that is not too small. -/
def unitOf (num den : Nat) : Int :=
  let guess : Int := (num.log2 : Int) - (den.log2 : Int) - 52
  let scaled := inUnits num den guess
  let exact := if scaled.1 < 0x10000000000000 * scaled.2 then guess - 1 else guess
  max (-1074) exact

/-- The number nearest to `±num / den`, a half to the even mantissa; infinite where the quotient
is too large. -/
def ofRatio (negative : Bool) (num den : Nat) : Binary64 :=
  if num = 0 then zero negative
  else
    let unit := unitOf num den
    let scaled := inUnits num den unit
    let mantissa := roundedQuotient scaled.1 scaled.2
    let carried := mantissa = 0x20000000000000
    let exponent := if carried then unit + 1 else unit
    if 971 < exponent then .infinite negative
    else .finite negative (if carried then 0x10000000000000 else mantissa) exponent

def ofDecimal (negative : Bool) (digits : Nat) (power : Int) : Binary64 :=
  match power with
  | .ofNat p => ofRatio negative (digits * Nat.pow 10 p) 1
  | .negSucc p => ofRatio negative digits (Nat.pow 10 (p + 1))

def ratio? : Binary64 → Option (Nat × Nat)
  | .finite _ mantissa (.ofNat e) => some (mantissa * Nat.pow 2 e, 1)
  | .finite _ mantissa (.negSucc e) => some (mantissa, Nat.pow 2 (e + 1))
  | _ => none

def negate : Binary64 → Binary64
  | .finite negative mantissa exponent => .finite (!negative) mantissa exponent
  | .infinite negative => .infinite (!negative)
  | .nan => .nan

/-- Product and quotient of two nonnegative finite numbers. -/
def mul (a b : Binary64) : Binary64 :=
  match a.ratio?, b.ratio? with
  | some (n, d), some (m, e) => ofRatio false (n * m) (d * e)
  | _, _ => .nan

@[inherit_doc mul]
def div (a b : Binary64) : Binary64 :=
  match a.ratio?, b.ratio? with
  | some (n, d), some (m, e) => ofRatio false (n * e) (d * m)
  | _, _ => .nan

/-- Equality of values: both zeros are equal, and no value equals the one that is not a number. -/
def equal : Binary64 → Binary64 → Bool
  | .finite s m e, .finite t n f => m == n && ((m == 0 && n == 0) || (s == t && e == f))
  | .infinite s, .infinite t => s == t
  | _, _ => false

def isInfinite : Binary64 → Bool
  | .infinite _ => true
  | _ => false

def isFinite : Binary64 → Bool
  | .finite _ _ _ => true
  | _ => false

end Binary64

end FlowCompletion
