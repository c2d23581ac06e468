import RuleTree.Text.Pieces
import RuleTree.Number.Numeral

/-! # Number policies

A text value is taken for a number or left alone according to a policy:
`strict` accepts a whole complete numeral, `enhanced` also one with digit
grouping or a trailing point, `always` any text that starts with a numeral, and
`never` nothing.  Blanks around the numeral are allowed throughout.  The main
definition is `convert?`.
-/
namespace RuleTree

/-- When a text value counts as a number. -/
inductive NumberPolicy where
  | never
  | strict
  | always
  | enhanced
  deriving DecidableEq

namespace NumberPolicy
open Text

/-- The name of a policy. -/
def name : NumberPolicy → String
  | .never => "never"
  | .strict => "strict"
  | .always => "always"
  | .enhanced => "enhanced"

/-- A whole complete numeral, with blanks around it. -/
def isStrict (cs : List Char) : Bool :=
  match Numeral.read? (trimBoth cs) with
  | some (x, []) => x.isComplete
  | _ => false

/-- Three digits. -/
def isTriple (cs : List Char) : Bool := cs.length == 3 && cs.all isDigit

/-- Digits in groups of three behind a first group of one to three, with an
underscore or a comma before each further group. -/
def isGrouped (cs : List Char) : Bool :=
  match cutAt (fun c => c == '_' || c == ',') cs with
  | first :: second :: rest =>
    1 ≤ first.length && first.length ≤ 3 && first.all isDigit
      && isTriple second && rest.all isTriple
  | _ => false

/-- Digits, with single underscores between them. -/
def isUnderscored (cs : List Char) : Bool :=
  (cutAt (· == '_') cs).all fun piece => !piece.isEmpty && piece.all isDigit

/-- A digit, or a point and a digit. -/
def startsNumber : List Char → Bool
  | '.' :: c :: _ => isDigit c
  | c :: _ => isDigit c
  | [] => false

/-- A numeral whose whole part may be grouped and whose point needs no digits
after it, with blanks around it. -/
def isEnhanced (cs : List Char) : Bool :=
  let unsigned := (Numeral.readSign (trimBoth cs)).2
  let inWhole (c : Char) : Bool := isDigit c || c == '_' || c == ','
  let whole := unsigned.takeWhile inWhole
  let rest := match unsigned.dropWhile inWhole with
    | '.' :: rest => rest.dropWhile isDigit
    | rest => rest
  startsNumber unsigned && (whole.isEmpty || isGrouped whole || isUnderscored whole)
    && (Numeral.readExponent rest).2.isEmpty

/-- The numeral that a text starts with, after blanks. -/
def leading? (cs : List Char) : Option Numeral := (Numeral.read? (trimStart cs)).map (·.1)

/-- Whether the policy takes the text for a number. -/
def accepts : NumberPolicy → List Char → Bool
  | .never, _ => false
  | .strict, cs => isStrict cs
  | .always, cs => (leading? cs).isSome
  | .enhanced, cs => isStrict cs || isEnhanced cs

/-- The numeral that a whole text is once its grouping marks are dropped. -/
def wholeNumeral? (cs : List Char) : Option Numeral :=
  match Numeral.read? ((trimBoth cs).filter fun c => c != '_' && c != ',') with
  | some (x, []) => some x
  | _ => none

/-- The numeral that the policy reads in a text; none where it leaves it alone. -/
def numeral? (policy : NumberPolicy) (cs : List Char) : Option Numeral :=
  if policy.accepts cs then
    match policy with
    | .always => leading? cs
    | _ => wholeNumeral? cs
  else none

/-- The number that the policy makes of a text; none where it leaves it alone. -/
def convert? (policy : NumberPolicy) (cs : List Char) : Option Number :=
  (policy.numeral? cs).map Numeral.value

@[simp] theorem convert?_never (cs : List Char) : convert? .never cs = none := rfl

end NumberPolicy
end RuleTree
