/-! # Binary64

The floating point numbers of IEEE 754 double precision, kept as exact
integers: a finite number is `mantissa · 2 ^ exponent`.  Every finite number has
one representation, the one with the mantissa in `2 ^ 52 .. 2 ^ 53`, or with the
least exponent below that, so equality of representations is equality of
numbers up to the sign of zero.  The main definition is `ofDecimal`, which
rounds to the nearest number and goes to the even mantissa on a tie.
-/
namespace RuleTree

/-- A double precision number. -/
inductive Binary64 where
  | nan
  | infinite (negative : Bool)
  | finite (negative : Bool) (mantissa : Nat) (exponent : Int)
  deriving DecidableEq

namespace Binary64

/-- The exponent of the numbers nearest to zero. -/
def leastExponent : Int := -1074

/-- The exponent of the largest numbers. -/
def greatestExponent : Int := 971

/-- Zero, with its sign. -/
def zero (negative : Bool) : Binary64 := .finite negative 0 leastExponent

/-- The quotient to the nearest integer, a half going to the even one. -/
def roundQuotient (num den : Nat) : Nat :=
  let q := num / den
  let r := num % den
  if 2 * r < den then q
  else if den < 2 * r then q + 1
  else if q % 2 = 0 then q
  else q + 1

/-- Whether `2 ^ k ≤ num / den`. -/
def powerLe (k : Int) (num den : Nat) : Bool :=
  den * Nat.pow 2 k.toNat ≤ num * Nat.pow 2 (-k).toNat

/-- The number nearest to a positive quotient. -/
def ofQuotient (negative : Bool) (num den : Nat) : Binary64 :=
  let estimate : Int := (num.log2 : Int) - (den.log2 : Int)
  let magnitude := if powerLe estimate num den then estimate else estimate - 1
  let exponent := max (magnitude - 52) leastExponent
  let mantissa := roundQuotient (num * Nat.pow 2 (-exponent).toNat)
    (den * Nat.pow 2 exponent.toNat)
  let (mantissa, exponent) :=
    if mantissa = Nat.pow 2 53 then (Nat.pow 2 52, exponent + 1) else (mantissa, exponent)
  if mantissa = 0 then zero negative
  else if greatestExponent < exponent then .infinite negative
  else .finite negative mantissa exponent

/-- The number nearest to `digits · 10 ^ exponent`.  Magnitudes far outside the
range of the format are decided by the count of digits alone. -/
def ofDecimal (negative : Bool) (digits : Nat) (exponent : Int) : Binary64 :=
  if digits = 0 then zero negative
  else
    let size : Int := (Nat.toDigits 10 digits).length + exponent
    if 310 < size then .infinite negative
    else if size < -330 then zero negative
    else
      ofQuotient negative (digits * Nat.pow 10 exponent.toNat) (Nat.pow 10 (-exponent).toNat)

/-- The number nearest to an integer. -/
def ofInt (n : Int) : Binary64 :=
  if n = 0 then zero false else ofQuotient (n < 0) n.natAbs 1

/-- Whether the number is exactly the integer. -/
def equalsInt (n : Int) : Binary64 → Bool
  | .finite negative mantissa exponent =>
    let magnitudes :=
      mantissa * Nat.pow 2 exponent.toNat = n.natAbs * Nat.pow 2 (-exponent).toNat
    magnitudes && (n == 0 || (negative == decide (n < 0)))
  | _ => false

/-- Whether the number is less than an integer. -/
def lessThanInt (x : Binary64) (n : Int) : Bool :=
  match x with
  | .nan => false
  | .infinite negative => negative
  | .finite negative mantissa exponent =>
    let scaled : Int := (mantissa * Nat.pow 2 exponent.toNat : Nat)
    (if negative then -scaled else scaled) < n * (Nat.pow 2 (-exponent).toNat : Nat)

/-- A finite number in units of `2 ^ leastExponent`. -/
def units (negative : Bool) (mantissa : Nat) (exponent : Int) : Int :=
  let magnitude : Int := (mantissa * Nat.pow 2 (exponent - leastExponent).toNat : Nat)
  if negative then -magnitude else magnitude

/-- The number nearest to the sum of two.  A sum of zero is negative only if
both numbers are. -/
def add : Binary64 → Binary64 → Binary64
  | .nan, _ => .nan
  | _, .nan => .nan
  | .infinite s, .infinite t => if s == t then .infinite s else .nan
  | .infinite s, _ => .infinite s
  | _, .infinite t => .infinite t
  | .finite s m e, .finite t n f =>
    let total := units s m e + units t n f
    if total = 0 then zero (s && t)
    else ofQuotient (total < 0) total.natAbs (Nat.pow 2 (-leastExponent).toNat)

/-- Equality of numbers: the zeros are equal and a NaN is equal to nothing. -/
def equals : Binary64 → Binary64 → Bool
  | .nan, _ => false
  | _, .nan => false
  | .finite _ 0 _, .finite _ 0 _ => true
  | x, y => x = y

end Binary64
end RuleTree
