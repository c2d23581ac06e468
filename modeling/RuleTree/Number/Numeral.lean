import RuleTree.Number.Binary64

/-! # Numerals

A numeral is an optional sign, digits with an optional point, and an optional
exponent: `7`, `-0.5`, `.5`, `5.`, `1e3`.  `read?` takes the longest numeral at
the start of a text.  A numeral without fraction digits and without an exponent
is an integer of any size; every other one is the nearest floating point number.

The digits may be those of any script.  Every script has its ten digits in a row,
so the table holds the zeros alone (Unicode 14).
-/
namespace RuleTree

/-! ### Decimal digits -/

namespace Text

/-- The zero of every decimal digit row. -/
def digitZeros : List Nat := [
  0x30, 0x660, 0x6F0, 0x7C0, 0x966, 0x9E6, 0xA66, 0xAE6, 0xB66, 0xBE6,
  0xC66, 0xCE6, 0xD66, 0xDE6, 0xE50, 0xED0, 0xF20, 0x1040, 0x1090, 0x17E0,
  0x1810, 0x1946, 0x19D0, 0x1A80, 0x1A90, 0x1B50, 0x1BB0, 0x1C40, 0x1C50, 0xA620,
  0xA8D0, 0xA900, 0xA9D0, 0xA9F0, 0xAA50, 0xABF0, 0xFF10, 0x104A0, 0x10D30, 0x11066,
  0x110F0, 0x11136, 0x111D0, 0x112F0, 0x11450, 0x114D0, 0x11650, 0x116C0, 0x11730, 0x118E0,
  0x11950, 0x11C50, 0x11D50, 0x11DA0, 0x16A60, 0x16AC0, 0x16B50, 0x1D7CE, 0x1D7D8, 0x1D7E2,
  0x1D7EC, 0x1D7F6, 0x1E140, 0x1E2F0, 0x1E950, 0x1FBF0]

/-- The value of a decimal digit of any script. -/
def digitValue? (c : Char) : Option Nat :=
  (digitZeros.find? fun z => z ≤ c.toNat && c.toNat < z + 10).map (c.toNat - ·)

/-- A decimal digit of any script. -/
def isDigit (c : Char) : Bool := (digitValue? c).isSome

/-- The number that a row of digits writes; other characters count as zero. -/
def digitsValue (cs : List Char) : Nat :=
  cs.foldl (fun n c => 10 * n + (digitValue? c).getD 0) 0

theorem isDigit_iff {c : Char} :
    isDigit c = true ↔ ∃ z ∈ digitZeros, z ≤ c.toNat ∧ c.toNat < z + 10 := by
  simp [isDigit, digitValue?, List.find?_isSome]

end Text

/-! ### Numerals -/

/-- An integer of any size or a floating point number. -/
inductive Number where
  | int (n : Int)
  | float (x : Binary64)
  deriving DecidableEq

/-- A numeral taken apart. -/
structure Numeral where
  negative : Bool
  whole : List Char
  /-- The digits after the point, if there is one. -/
  fraction : Option (List Char)
  /-- The sign and the digits of the exponent, if there is one. -/
  exponent : Option (Bool × List Char)

namespace Numeral
open Text

/-- An optional sign; true for minus. -/
def readSign : List Char → Bool × List Char
  | '+' :: cs => (false, cs)
  | '-' :: cs => (true, cs)
  | cs => (false, cs)

/-- An optional exponent; a mark without digits is not one. -/
def readExponent (cs : List Char) : Option (Bool × List Char) × List Char :=
  match cs with
  | c :: rest =>
    if c == 'e' || c == 'E' then
      let signed := readSign rest
      if (signed.2.takeWhile isDigit).isEmpty then (none, cs)
      else (some (signed.1, signed.2.takeWhile isDigit), signed.2.dropWhile isDigit)
    else (none, cs)
  | [] => (none, [])

/-- Digits with an optional point. -/
def readDigits? (cs : List Char) : Option ((List Char × Option (List Char)) × List Char) :=
  let whole := cs.takeWhile isDigit
  match cs.dropWhile isDigit with
  | '.' :: rest =>
    let fraction := rest.takeWhile isDigit
    if whole.isEmpty && fraction.isEmpty then none
    else some ((whole, some fraction), rest.dropWhile isDigit)
  | rest => if whole.isEmpty then none else some ((whole, none), rest)

/-- The longest numeral at the start of a text, and the text after it. -/
def read? (cs : List Char) : Option (Numeral × List Char) :=
  let signed := readSign cs
  (readDigits? signed.2).map fun (digits, rest) =>
    let exponent := readExponent rest
    (⟨signed.1, digits.1, digits.2, exponent.1⟩, exponent.2)

/-- The digits after the point; none if there is no point. -/
def fractionDigits (x : Numeral) : List Char := x.fraction.getD []

/-- Written with digits on the right of every point. -/
def isComplete (x : Numeral) : Bool := x.fraction != some []

/-- The signed power of ten of the exponent. -/
def power (x : Numeral) : Int :=
  match x.exponent with
  | none => 0
  | some (negative, digits) => if negative then -digitsValue digits else digitsValue digits

/-- Written without fraction digits and without an exponent. -/
def isInteger (x : Numeral) : Bool := x.fractionDigits.isEmpty && x.exponent.isNone

/-- The number that a numeral writes. -/
def value (x : Numeral) : Number :=
  if x.isInteger then
    let n : Int := digitsValue x.whole
    .int (if x.negative then -n else n)
  else
    .float (Binary64.ofDecimal x.negative (digitsValue (x.whole ++ x.fractionDigits))
      (x.power - x.fractionDigits.length))

end Numeral
end RuleTree
