import RuleTree.Value.Items

/-! # Long integers

An integer may have any number of digits, but the time to read one from a text or
to write it to one grows with their square, so interpreters refuse to do either
beyond a number of digits (`DigitLimit`).  What an operation reads and writes is
the list of its `Conversion`s, and `DigitLimit.check` goes through such a list
before the operation takes place.
-/
namespace RuleTree

/-- How many digits an integer may have where it is read from a text or written to
one; none is any number.  Counts and positions have far fewer digits than any limit
that an interpreter takes, and are not looked at. -/
abbrev DigitLimit := Option Nat

/-- A step between an integer and its digits. -/
inductive Conversion where
  /-- A value is read by a policy, which may take a text for a number. -/
  | read (policy : NumberPolicy) (v : Value)
  /-- The text of a value is written. -/
  | write (v : Value)

namespace Value

mutual
/-- Whether every integer in a value has at most so many digits. -/
def isShort (digits : Nat) : Value → Bool
  | .int n => n.natAbs < Nat.pow 10 digits
  | .list items => areShort digits items
  | .map entries => entriesAreShort digits entries
  | _ => true

/-- Whether all values of a list are short. -/
def areShort (digits : Nat) : List Value → Bool
  | [] => true
  | v :: rest => isShort digits v && areShort digits rest

/-- Whether the values of all entries are short. -/
def entriesAreShort (digits : Nat) : List (String × Value) → Bool
  | [] => true
  | (_, v) :: rest => isShort digits v && entriesAreShort digits rest
end

end Value

/-- Whether a numeral that is an integer has at most so many digits; leading zeros
count. -/
def Numeral.isShort (digits : Nat) (x : Numeral) : Bool := !x.isInteger || x.whole.length ≤ digits

/-- Whether no more digits than so many are read or written at once. -/
def Conversion.fits (digits : Nat) : Conversion → Bool
  | .read policy (.text s) => (policy.numeral? s.toList).all (Numeral.isShort digits)
  | .read _ _ => true
  | .write v => v.isShort digits

namespace DigitLimit

/-- Fails where one of the conversions has more digits than the limit. -/
def check (limit : DigitLimit) (conversions : List Conversion) : Result Unit :=
  match limit with
  | none => .ok ()
  | some digits => if conversions.all (·.fits digits) then .ok () else Misuse.tooManyDigits.fail

@[simp] theorem check_none (conversions : List Conversion) :
    check none conversions = .ok () := rfl

@[simp] theorem check_nil (limit : DigitLimit) : limit.check [] = .ok () := by
  cases limit <;> rfl

end DigitLimit

/-! ### Wordings -/

/-- The values in the wording of a tree fault. -/
def TreeFault.written : TreeFault → List Value
  | .incompleteRule entries => [entries]
  | _ => []

/-- The values in the wording of an option fault. -/
def OptionFault.written : OptionFault → List Value
  | .quotePair given => [given]
  | .unknownFormat given => [given]
  | .unknownPreset given => [given]
  | .unknownReader given => [given]
  | _ => []

/-- The values in the wording of a value fault. -/
def ValueFault.written : ValueFault → List Value
  | .textAgainstField field _ => [field]
  | .fieldAgainstField field => [field]
  | .floatMembership field => [field]
  | .boundNotANumber given field => [given, field]

/-- The values in the wording of a fault in a source. -/
def ParseFault.written : ParseFault → List Value
  | .twoLiterals left _ right => [left, right]
  | .tooDeep limit => [limit]
  | _ => []

/-- The values in the wording of an error. -/
def Error.written : Error → List Value
  | .unknownField field _ => [field]
  | .unsupportedOperator operator dialect _ => [operator, dialect]
  | .unrepresentable token dialect => [token, dialect]
  | .invalidOption fault => fault.written
  | .unsupportedValue fault => fault.written
  | .invalidTree fault => fault.written
  | .parse fault _ => fault.written
  | .unknownPolicy given => [given]
  | .misuse _ => []

namespace DigitLimit

/-- The error that there is in place of one whose wording cannot be written. -/
def word (limit : DigitLimit) (e : Error) : Error :=
  match limit with
  | none => e
  | some digits => if e.written.all (·.isShort digits) then e else .misuse .tooManyDigits

/-- The result of an operation that words its errors. -/
def worded {α : Type} (limit : DigitLimit) (x : Result α) : Result α :=
  match limit with
  | none => x
  | some _ => x.mapError limit.word

@[simp] theorem word_none (e : Error) : word none e = e := rfl

@[simp] theorem worded_none {α : Type} (x : Result α) : worded none x = x := rfl

@[simp] theorem worded_ok {α : Type} (limit : DigitLimit) (a : α) :
    limit.worded (.ok a) = .ok a := by
  cases limit <;> rfl

@[simp] theorem worded_error {α : Type} (limit : DigitLimit) (e : Error) :
    limit.worded (.error e : Result α) = .error (limit.word e) := by
  cases limit <;> rfl

end DigitLimit

end RuleTree
