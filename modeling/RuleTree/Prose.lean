import RuleTree.Expression.Writing

/-! # Prose

A tree as an English sentence: fields by their labels, operators as phrases,
and nested groups in parentheses.
-/
namespace RuleTree
namespace Prose

/-- The label of a field; its name where it is not configured. -/
def label (fields : FieldTable) (name : Value) : Result Value := do
  if fields.isEmpty then return name
  match ← fields.find? name with
  | some f => return f.displayLabel
  | none => return name

/-- A value as a phrase: numbers and truth values plain, the rest in quotes. -/
def phraseOf : Value → String
  | .bool b => if b then "true" else "false"
  | v => if v.isNumber then v.display else Sql.textLiteral v.display

/-- A value of a rule: a literal or the label of another field. -/
def describe (style : Style) (r : Rule) (v : Value) : Result Value :=
  if r.comparesFields then label style.fields (.text v.display)
  else .ok (.text (phraseOf (v.withNumbers style.policy)))

/-- The value of a rule with one value.  Text matches take it as text. -/
def describeSingle (style : Style) (operator : Operator) (r : Rule) : Result String :=
  if operator.isTextMatch && !r.comparesFields then .ok (phraseOf (.text r.value.display))
  else (describe style r r.value).map Value.display

/-- A rule whose values are as the caller supplied them. -/
def suppliedRule (operator : Operator) (start : String) (v : Value) : String :=
  if operator.isMembership then
    if v.isNoOperand then "" else start ++ " " ++ v.display
  else if operator.isRange then
    match v.suppliedBounds? with
    | none => ""
    | some (low, high) => start ++ " " ++ low.display ++ " and " ++ high.display
  else start ++ " " ++ v.display

/-- A rule with its own values. -/
def ownRule (style : Style) (operator : Operator) (start : String) (r : Rule) :
    Result String := do
  if operator.isMembership then
    match ← r.value.toItems.mapM (describe style r) with
    | [] => return ""
    | items => return start ++ " (" ++ Text.joinWith ", " (← Value.texts items) ++ ")"
  else if operator.isRange then
    match r.value.bounds? with
    | none => return ""
    | some (low, high) => do
      let low ← describe style r low
      let high ← describe style r high
      return start ++ " " ++ low.display ++ " and " ++ high.display
  else return start ++ " " ++ (← describeSingle style operator r)

/-- One rule as a clause; empty where a multi-value rule has no operands. -/
def writeRule (plan : FormatPlan) (r : Rule) : Result String := do
  let operator ← Language.ruleOperator .naturalLanguage r
  let start := (← label plan.style.fields r.field).display ++ " " ++ Dialect.phrase operator
  if operator.isNullCheck then return start
  match ← plan.suppliedValue r operator with
  | some v => return suppliedRule operator start v
  | none => ownRule plan.style operator start r

/-- What a value of a rule converts. -/
def describeConversions (style : Style) (r : Rule) (v : Value) : List Conversion :=
  if r.comparesFields then
    .write v :: match label style.fields (.text v.display) with
      | .ok name => [.write name]
      | .error _ => []
  else [.read style.policy v, .write v]

/-- What `writeRule` converts. -/
def conversions (plan : FormatPlan) (r : Rule) : List Conversion :=
  match r.operator?, label plan.style.fields r.field with
  | some operator, .ok name =>
    plan.sentenceConversions r operator name (describeConversions plan.style r)
  | _, _ => []

/-- The clauses of a group with commas and its combinator between them. -/
def joinGroup (combinator : Value) (negated isRoot : Bool) (parts : List Value) :
    Result Value := do
  let name := Text.lower (← combinator.requireText)
  let sentence := Text.joinWith (", " ++ name ++ " ") (← Value.texts parts)
  return .text (if negated then "not (" ++ sentence ++ ")"
    else if isRoot then sentence
    else "(" ++ sentence ++ ")")

/-- The writer of sentences. -/
def writer : Writer Value where
  dialect := .naturalLanguage
  isEmpty := Value.isNothing
  write plan r _ := do return .text (← writeRule plan r)
  adopt v := return v
  combine := joinGroup

/-- A sentence that always holds. -/
def always : String := "1 is 1"

/-- A tree as a sentence. -/
def format (plan : FormatPlan) (query : Node) (limit : DigitLimit := none) : Result Value := do
  let (output, _) ← (writer.within limit conversions).run plan query
  return output.getD (plan.fallbackOr (.text always))

end Prose
end RuleTree
