import RuleTree.Clause.Tree
import RuleTree.Source.Reading
import RuleTree.Text.Pieces

/-! # Calls

In the expression languages a call of a text method on a field, such as
`name.contains("a")`, is a text match.  The tokens of the field and the method
are one dotted name, which `splitCall` takes apart at its last point.
-/
namespace RuleTree
namespace Expression
open Source

/-- The field and the method of a dotted name. -/
def splitCall (name : String) : Result (String × String) :=
  match Text.splitLast '.' name.toList with
  | some (c :: field, method) => .ok (String.ofList (c :: field), String.ofList method)
  | _ => (ParseFault.noReceiver name).fail

/-- The rule of a call. -/
def callRule (dialect : Dialect) (name : String) (arguments : List Operand) : Result Rule := do
  let (field, method) ← splitCall name
  Clause.methodRule dialect field method arguments

/-! ### Names -/

/-- The name of a field, which has no quotes. -/
def nameOf (f : FieldName) : String := String.ofList f.spelling

/-- The signs of comparison, the longer ones first. -/
def comparators : List (List Char) :=
  [['=', '='], ['!', '='], ['<', '='], ['>', '='], ['<'], ['>']]

/-- The terminals of values. -/
def values : List Terminal := .name :: literals

/-- Ranges are two comparisons in parentheses. -/
def traits : SourceTraits where
  rangesAsPairs := true

end Expression
end RuleTree
