import RuleTree.Options.Format
import RuleTree.Value.DigitLimit

/-! # SQL literals

Texts stand in single quotes, with every quote inside them doubled.  Text
matches are `like` patterns with a percent sign on each side that may go on.
The main definitions are `literal`, for one value, and `valueText`, for the
value of a whole rule.
-/
namespace RuleTree
namespace Sql

/-- A field name in the quotes of the style. -/
def fieldText (style : Style) (name : Value) : String :=
  style.quotes.1.display ++ name.display ++ style.quotes.2.display

/-- A text with every single quote doubled. -/
def doubleQuotes (s : String) : String := Text.replace s "'" "''"

/-- A text as a literal. -/
def textLiteral (s : String) : String := "'" ++ doubleQuotes s ++ "'"

/-- The pattern that a text match compares with. -/
def likePattern (operator : Operator) (v : Value) : String :=
  if operator.anchorsStart then v.display ++ "%"
  else if operator.anchorsEnd then "%" ++ v.display
  else "%" ++ v.display ++ "%"

/-- The operator and the text of a pattern, told by the percent signs at its
ends. -/
def readLikePattern (cs : List Char) : Operator × List Char :=
  let starts := cs.head? == some '%'
  let ends := cs.getLast? == some '%'
  if starts && ends && 2 ≤ cs.length then (.contains, cs.tail.dropLast)
  else if ends then (.beginsWith, cs.dropLast)
  else if starts then (.endsWith, cs.tail)
  else (.eq, cs)

/-- One value as a literal. -/
def literal (policy : NumberPolicy) (v : Value) : String :=
  match v with
  | .null => "NULL"
  | .bool b => if b then "TRUE" else "FALSE"
  | v =>
    if v.rendersAsNumber policy then
      if v.isNumericText then v.trimmed.display else (v.withNumbers policy).display
    else textLiteral v.display

/-- Whether a concatenation operator is the function of that name, in either
case. -/
def isConcatFunction (concat : String) : Bool :=
  (Text.trim concat).toList.map Char.toUpper == "CONCAT".toList

/-- Texts joined by the function or the operator of the style. -/
def concatenate (style : Style) (parts : List String) : Result String := do
  let concat ← style.concat.requireText
  if isConcatFunction concat then return "CONCAT(" ++ Text.joinWith ", " parts ++ ")"
  return Text.joinWith (" " ++ concat ++ " ") parts

/-- The value of a rule between fields. -/
def otherFields (style : Style) (operator : Option Operator) (v : Value) : Result String :=
  match operator with
  | none => .ok (fieldText style v)
  | some operator =>
    if operator.isMembership then
      match v.toItems with
      | [] => .ok ""
      | names => .ok ("(" ++ Text.joinWith ", " (names.map (fieldText style)) ++ ")")
    else if operator.isRange then
      match v.bounds? with
      | none => .ok ""
      | some (low, high) => .ok (fieldText style low ++ " and " ++ fieldText style high)
    else if operator.isTextMatch then
      let other := fieldText style v
      if operator.anchorsStart then concatenate style [other, "'%'"]
      else if operator.anchorsEnd then concatenate style ["'%'", other]
      else concatenate style ["'%'", other, "'%'"]
    else .ok (fieldText style v)

/-- The value of a rule as it stands after the operator; empty where a null
check takes none or a multi-value rule has no operands. -/
def valueText (r : Rule) (style : Style) : Result String :=
  if r.comparesFields then otherFields style r.operator? r.value
  else
    match r.operator? with
    | none => .ok (literal style.policy r.value)
    | some operator =>
      if operator.isNullCheck then .ok ""
      else if operator.isMembership then
        match r.value.toItems with
        | [] => .ok ""
        | items => .ok ("(" ++ Text.joinWith ", " (items.map (literal style.policy)) ++ ")")
      else if operator.isRange then
        match r.value.bounds? with
        | none => .ok ""
        | some (low, high) =>
          .ok (literal style.policy low ++ " and " ++ literal style.policy high)
      else if operator.isTextMatch then .ok (textLiteral (likePattern operator r.value))
      else .ok (literal style.policy r.value)

/-- The value of a rule by the caller's value writer, or as `valueText`. -/
def ruleValue (plan : FormatPlan) (r : Rule) : Result Value :=
  match plan.valueHook with
  | .given hook => hook r plan.style
  | .unusable => Misuse.wrongKind.fail
  | _ => (valueText r plan.style).map .text

/-! ### Conversions -/

/-- What writing a field name converts. -/
def fieldConversions (style : Style) (name : Value) : List Conversion :=
  [.write style.quotes.1, .write name, .write style.quotes.2]

/-- What writing a value as a literal converts.  A complete numeral is written as
it is. -/
def literalConversions (policy : NumberPolicy) (v : Value) : List Conversion :=
  if v.isNumericText then [] else [.read policy v, .write v]

/-- What `valueText` converts. -/
def valueConversions (r : Rule) (style : Style) : List Conversion :=
  match r.operator? with
  | none =>
    if r.comparesFields then fieldConversions style r.value
    else literalConversions style.policy r.value
  | some operator =>
    if r.comparesFields then (r.operands operator).flatMap (fieldConversions style)
    else if operator.isNullCheck then []
    else if operator.isTextMatch then [.write r.value]
    else (r.operands operator).flatMap (literalConversions style.policy)

/-- What writing a rule converts: its field, its value, and what is left to do once
the value is known. -/
def ruleConversions (plan : FormatPlan) (r : Rule) (rest : Value → List Conversion) :
    List Conversion :=
  let own := match plan.valueHook with
    | .given _ => []
    | .unusable => []
    | _ => valueConversions r plan.style
  fieldConversions plan.style r.field ++ own
    ++ match ruleValue plan r with
      | .ok v => rest v
      | .error _ => []

end Sql
end RuleTree
