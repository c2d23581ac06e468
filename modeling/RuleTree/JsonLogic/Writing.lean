import RuleTree.Expression.Writing

/-! # JsonLogic

A tree as a JsonLogic rule: an object with one operation and the list of its
arguments.  Ranges are a comparison with three arguments, and the operators
without a form of their own are negations.
-/
namespace RuleTree
namespace JsonLogic

/-- The operation of a name on arguments. -/
def operation (name : String) (arguments : List Value) : Value := .map [(name, .list arguments)]

/-- The value of a field. -/
def variableOf (name : Value) : Value := .map [("var", name)]

/-- The negation of a rule. -/
def negation (v : Value) : Value := .map [("!", v)]

/-- Whether an operator is written as the negation of another one. -/
def isNegation (operator : Operator) : Bool :=
  operator = .notIn || operator = .notBetween || operator.isNegatedText

/-- One value of a rule: a literal or another field. -/
def operand (style : Style) (r : Rule) (v : Value) : Value :=
  if r.comparesFields then variableOf v else v.withNumbers style.policy

/-- The value of a rule with one value.  Text matches take it as text. -/
def singleValue (style : Style) (operator : Operator) (r : Rule) : Value :=
  if operator.isTextMatch && !r.comparesFields then .text r.value.display
  else operand style r r.value

/-- A comparison or a text match. -/
def application (operator : Operator) (field v : Value) : Value :=
  if operator = .contains || operator = .doesNotContain then operation "in" [v, variableOf field]
  else operation (Dialect.jsonlogicSpelling operator) [variableOf field, v]

/-- The positive form of a rule whose values are as the caller supplied them. -/
def suppliedRule (operator : Operator) (field v : Value) : Option Value :=
  if operator.isMembership then
    if v.isNoOperand then none else some (operation "in" [variableOf field, v])
  else if operator.isRange then
    v.suppliedBounds?.map fun (low, high) => operation "<=" [low, variableOf field, high]
  else some (application operator field v)

/-- The positive form of a rule with its own values. -/
def ownRule (style : Style) (operator : Operator) (r : Rule) : Option Value :=
  if operator.isNullCheck then
    some (operation (Dialect.jsonlogicSpelling operator) [variableOf r.field, .null])
  else if operator.isMembership then
    match r.value.toItems with
    | [] => none
    | items =>
      some (operation "in" [variableOf r.field, .list (items.map (operand style r))])
  else if operator.isRange then
    r.value.bounds?.map fun (low, high) =>
      operation "<=" [operand style r low, variableOf r.field, operand style r high]
  else some (application operator r.field (singleValue style operator r))

/-- One rule; null where a multi-value rule has no operands. -/
def writeRule (plan : FormatPlan) (r : Rule) : Result Value := do
  let operator ← Language.ruleOperator .jsonlogic r
  let positive ← match ← plan.suppliedValue r operator with
    | some v => pure (suppliedRule operator r.field v)
    | none => pure (ownRule plan.style operator r)
  return match positive with
    | none => .null
    | some v => if isNegation operator then negation v else v

/-- What `writeRule` converts. -/
def conversions (plan : FormatPlan) (r : Rule) : List Conversion :=
  match r.operator? with
  | none => []
  | some operator =>
    match plan.suppliedValue r operator with
    | .ok none =>
      if r.comparesFields || operator.isNullCheck then []
      else if operator.isTextMatch then [.write r.value]
      else (r.operands operator).map (.read plan.style.policy)
    | _ => []

/-- The rules of a group under its combinator. -/
def joinGroup (combinator : Value) (negated : Bool) (parts : List Value) : Result Value := do
  let name := Text.lower (← combinator.requireText)
  if name == "and" || name == "or" then
    let joined := operation name parts
    return if negated then negation joined else joined
  throw (.unsupportedOperator combinator (.text "jsonlogic") none)

/-- Null and the empty object are left out. -/
def isEmptyOutput : Value → Bool
  | .null => true
  | .map entries => entries.isEmpty
  | _ => false

/-- The writer of JsonLogic. -/
def writer : Writer Value where
  dialect := .jsonlogic
  isEmpty := isEmptyOutput
  write plan r _ := writeRule plan r
  adopt v := return v
  combine combinator negated _ parts := joinGroup combinator negated parts

/-- A tree as a JsonLogic rule; an empty one is false. -/
def format (plan : FormatPlan) (query : Node) (limit : DigitLimit := none) : Result Value := do
  let (output, _) ← (writer.within limit conversions).run plan query
  return output.getD (plan.fallbackOr (.bool false))

end JsonLogic
end RuleTree
