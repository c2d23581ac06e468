import RuleTree.Text.Pieces
import RuleTree.Text.Lowercase
import RuleTree.Value

/-! # Operators

The eighteen operators of a rule.  Every operator has an `inverse` that holds
exactly where it does not, and the comparisons have a `flipped?` form with the
operands exchanged.  Names are read without regard to case or outer blanks.
-/
namespace RuleTree

/-- How a rule relates its field to its value. -/
inductive Operator where
  | eq
  | ne
  | lt
  | gt
  | le
  | ge
  | contains
  | beginsWith
  | endsWith
  | doesNotContain
  | doesNotBeginWith
  | doesNotEndWith
  | null
  | notNull
  | isIn
  | notIn
  | between
  | notBetween
  deriving DecidableEq

namespace Operator

/-- The canonical name. -/
def name : Operator → String
  | .eq => "="
  | .ne => "!="
  | .lt => "<"
  | .gt => ">"
  | .le => "<="
  | .ge => ">="
  | .contains => "contains"
  | .beginsWith => "beginsWith"
  | .endsWith => "endsWith"
  | .doesNotContain => "doesNotContain"
  | .doesNotBeginWith => "doesNotBeginWith"
  | .doesNotEndWith => "doesNotEndWith"
  | .null => "null"
  | .notNull => "notNull"
  | .isIn => "in"
  | .notIn => "notIn"
  | .between => "between"
  | .notBetween => "notBetween"

/-- Every operator. -/
def all : List Operator :=
  [.eq, .ne, .lt, .gt, .le, .ge, .contains, .beginsWith, .endsWith, .doesNotContain,
    .doesNotBeginWith, .doesNotEndWith, .null, .notNull, .isIn, .notIn, .between, .notBetween]

/-- The operator of a name, whatever its case and outer blanks. -/
def ofName? (s : String) : Option Operator :=
  let key := Text.lower (Text.trim s)
  all.find? fun op => Text.lower op.name == key

/-- The operator that a value names; only texts name one. -/
def ofValue? : Value → Option Operator
  | .text s => ofName? s
  | _ => none

/-- The name as a value, as rules carry it. -/
def toValue (op : Operator) : Value := .text op.name

def isNullCheck : Operator → Bool
  | .null | .notNull => true
  | _ => false

def isMembership : Operator → Bool
  | .isIn | .notIn => true
  | _ => false

def isRange : Operator → Bool
  | .between | .notBetween => true
  | _ => false

/-- The text matches that do not match. -/
def isNegatedText : Operator → Bool
  | .doesNotContain | .doesNotBeginWith | .doesNotEndWith => true
  | _ => false

def isTextMatch : Operator → Bool
  | .contains | .beginsWith | .endsWith => true
  | .doesNotContain | .doesNotBeginWith | .doesNotEndWith => true
  | _ => false

/-- Matches, or does not match, the start of the text. -/
def anchorsStart : Operator → Bool
  | .beginsWith | .doesNotBeginWith => true
  | _ => false

/-- Matches, or does not match, the end of the text. -/
def anchorsEnd : Operator → Bool
  | .endsWith | .doesNotEndWith => true
  | _ => false

/-- All but the null checks take a value. -/
def takesValue (op : Operator) : Bool := !op.isNullCheck

/-- The operator that holds exactly where this one does not. -/
def inverse : Operator → Operator
  | .eq => .ne
  | .ne => .eq
  | .lt => .ge
  | .gt => .le
  | .le => .gt
  | .ge => .lt
  | .contains => .doesNotContain
  | .beginsWith => .doesNotBeginWith
  | .endsWith => .doesNotEndWith
  | .doesNotContain => .contains
  | .doesNotBeginWith => .beginsWith
  | .doesNotEndWith => .endsWith
  | .null => .notNull
  | .notNull => .null
  | .isIn => .notIn
  | .notIn => .isIn
  | .between => .notBetween
  | .notBetween => .between

/-- The comparison with its operands exchanged: `5 < age` is `age > 5`. -/
def flipped? : Operator → Option Operator
  | .eq => some .eq
  | .ne => some .ne
  | .lt => some .gt
  | .gt => some .lt
  | .le => some .ge
  | .ge => some .le
  | _ => none

@[simp] theorem inverse_inverse (op : Operator) : op.inverse.inverse = op := by
  cases op <;> rfl

theorem isTextMatch_inverse (op : Operator) : op.inverse.isTextMatch = op.isTextMatch := by
  cases op <;> rfl

end Operator
end RuleTree
