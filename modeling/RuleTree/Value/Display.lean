import RuleTree.Text.Quoted
import RuleTree.Text.Pieces
import RuleTree.Number.Shortest
import RuleTree.Value

/-! # Values as text

The text of a value inside an expression or a message.  A text stands for
itself at the top and is quoted inside a list or a map; truth values are
capitalised, null is `None`, and floating point numbers have the fewest digits
that read back, always with a point or an exponent.
-/
namespace RuleTree

/-- Floating point numbers from `10 ^ -4` to below `10 ^ 16` are written
without an exponent, and exponents have at least two digits. -/
def floatLayout : Decimal.Layout := ⟨-4, 16, 2⟩

/-- The text of a floating point number. -/
def Binary64.text : Binary64 → String
  | .nan => "nan"
  | .infinite negative => if negative then "-inf" else "inf"
  | .finite negative mantissa exponent =>
    let digits := if mantissa = 0 then ['0', '.', '0']
      else (shortest mantissa exponent).text floatLayout
    String.ofList (if negative then '-' :: digits else digits)

namespace Value

/-- The decimal digits of a natural number. -/
def natText (n : Nat) : String := String.ofList (Nat.toDigits 10 n)

/-- An integer in decimal, with a minus where it is negative. -/
def intText (n : Int) : String := if n < 0 then "-" ++ natText n.natAbs else natText n.natAbs

mutual
/-- The text of a value as it stands inside a larger one. -/
def inspect : Value → String
  | .null => "None"
  | .bool b => if b then "True" else "False"
  | .int n => intText n
  | .float x => x.text
  | .text s => Text.quoted s
  | .list items => "[" ++ Text.joinWith ", " (inspectItems items) ++ "]"
  | .map entries => "\x7b" ++ Text.joinWith ", " (inspectEntries entries) ++ "\x7d"

/-- The texts of the items of a list. -/
def inspectItems : List Value → List String
  | [] => []
  | v :: rest => inspect v :: inspectItems rest

/-- The texts of the entries of a map. -/
def inspectEntries : List (String × Value) → List String
  | [] => []
  | (k, v) :: rest => (Text.quoted k ++ ": " ++ inspect v) :: inspectEntries rest
end

/-- The text of a value on its own: a text is itself. -/
def display : Value → String
  | .text s => s
  | v => v.inspect

@[simp] theorem display_text (s : String) : display (.text s) = s := rfl

@[simp] theorem display_int (n : Int) : display (.int n) = intText n := by
  simp [display, inspect]

/-- The text of a path: its positions in brackets. -/
def pathText (path : Path) : String :=
  "[" ++ Text.joinWith ", " (path.map natText) ++ "]"

end Value
end RuleTree
