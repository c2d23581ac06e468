import RuleTree.Sql.Literal
import RuleTree.Writing

/-! # Plain SQL

A tree as the condition of a `where` clause with its values written out.  Every
group stands in parentheses, the root too.
-/
namespace RuleTree
namespace Sql

/-- One rule as a condition; empty where a multi-value rule has no operands. -/
def plainRule (plan : FormatPlan) (r : Rule) : Result String := do
  let operator ← Operator.resolve r.operator (.text "sql")
  let spelling := Dialect.sqlSpelling operator
  let field := fieldText plan.style r.field
  if operator.isNullCheck then return field ++ " " ++ spelling
  let value ← ruleValue plan r
  if (operator.isMembership || operator.isRange) && !value.truthy then return ""
  return Text.trim (field ++ " " ++ spelling ++ " " ++ value.display)

/-- What `plainRule` converts. -/
def plainConversions (plan : FormatPlan) (r : Rule) : List Conversion :=
  match r.operator? with
  | none => []
  | some operator =>
    if operator.isNullCheck then fieldConversions plan.style r.field
    else ruleConversions plan r fun v => [.write v]

/-- The conditions of a group in parentheses, with the combinator between them. -/
def joinGroup (combinator : Value) (negated : Bool) (parts : List Value) : Result Value := do
  let conditions ← Value.texts parts
  return .text ((if negated then "NOT " else "") ++ "("
    ++ Text.joinWith (" " ++ combinator.display ++ " ") conditions ++ ")")

/-- The writer of plain SQL. -/
def plainWriter : Writer Value where
  dialect := .sql
  isEmpty := Value.isNothing
  write plan r _ := do return .text (← plainRule plan r)
  adopt v := return v
  combine combinator negated _ parts := joinGroup combinator negated parts

/-- A condition that always holds. -/
def always : String := "(1 = 1)"

/-- A tree as a condition. -/
def plain (plan : FormatPlan) (query : Node) (limit : DigitLimit := none) : Result Value := do
  let (output, _) ←
    (plainWriter.within limit plainConversions fun name => [.write name]).run plan query
  return output.getD (plan.fallbackOr (.text always))

end Sql
end RuleTree
