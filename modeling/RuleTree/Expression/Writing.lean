import RuleTree.Sql.Literal
import RuleTree.Text.Quoted
import RuleTree.Writing

/-! # Expressions

Trees as expressions of CEL and of SpEL.  The two languages share the shape of
every rule and differ in a `Language`: the connectives, the quotes of texts, the
brackets of lists and the form of membership.  Ranges become comparisons in
parentheses, and the root group stands without any.
-/
namespace RuleTree

/-- What tells one expression language from the other. -/
structure Language where
  dialect : Dialect
  conjunction : String
  disjunction : String
  /-- A text as a literal. -/
  quote : String → String
  /-- A list literal of written items. -/
  list : List String → String
  /-- Whether a field is in, or not in, a written list. -/
  membership : String → String → Bool → String

namespace Language

/-- Symbols for connectives, double quotes, and an `in` operator. -/
def cel : Language where
  dialect := .cel
  conjunction := "&&"
  disjunction := "||"
  quote s := "\"" ++ Text.escaped "\"" s ++ "\""
  list items := "[" ++ Text.joinWith ", " items ++ "]"
  membership field items negated :=
    if negated then "!(" ++ field ++ " in " ++ items ++ ")" else field ++ " in " ++ items

/-- Words for connectives, single quotes, and lists that are asked whether they
contain a field. -/
def spel : Language where
  dialect := .spel
  conjunction := "and"
  disjunction := "or"
  quote := Sql.textLiteral
  list items := "\x7b" ++ Text.joinWith ", " items ++ "\x7d"
  membership field items negated :=
    let call := items ++ ".contains(" ++ field ++ ")"
    if negated then "!" ++ call else call

/-- One value as a literal. -/
def literal (l : Language) (policy : NumberPolicy) (v : Value) : String :=
  match v with
  | .null => "null"
  | .bool b => if b then "true" else "false"
  | v =>
    if v.rendersAsNumber policy then
      if v.isNumericText then v.trimmed.display else (v.withNumbers policy).display
    else l.quote v.display

/-- One value of a rule: a literal, or the name of another field. -/
def operand (l : Language) (style : Style) (r : Rule) (v : Value) : String :=
  if r.comparesFields then v.display else l.literal style.policy v

/-- A range as two comparisons in parentheses. -/
def range (l : Language) (field : String) (operator : Operator) (low high : String) : String :=
  if operator = .between then
    "(" ++ field ++ " >= " ++ low ++ " " ++ l.conjunction ++ " " ++ field ++ " <= " ++ high ++ ")"
  else
    "(" ++ field ++ " < " ++ low ++ " " ++ l.disjunction ++ " " ++ field ++ " > " ++ high ++ ")"

/-- The value of a rule with one value. -/
def singleValue (l : Language) (style : Style) (operator : Operator) (r : Rule) : String :=
  if operator.isTextMatch && !r.comparesFields then l.quote r.value.display
  else l.operand style r r.value

/-- A comparison or the call of a text method. -/
def application (operator : Operator) (field spelling value : String) : String :=
  if operator.isTextMatch then
    (if operator.isNegatedText then "!" else "") ++ field ++ "." ++ spelling ++ "(" ++ value ++ ")"
  else field ++ " " ++ spelling ++ " " ++ value

/-- A rule whose values are as the caller supplied them. -/
def suppliedRule (l : Language) (operator : Operator) (field spelling : String) (v : Value) :
    String :=
  if operator.isMembership then
    if v.isNoOperand then "" else l.membership field v.display (operator = .notIn)
  else if operator.isRange then
    match v.suppliedBounds? with
    | none => ""
    | some (low, high) => l.range field operator low.display high.display
  else application operator field spelling v.display

/-- A rule with its own values. -/
def ownRule (l : Language) (style : Style) (operator : Operator) (field spelling : String)
    (r : Rule) : String :=
  if operator.isMembership then
    match r.value.toItems with
    | [] => ""
    | items => l.membership field (l.list (items.map (l.operand style r))) (operator = .notIn)
  else if operator.isRange then
    match r.value.bounds? with
    | none => ""
    | some (low, high) =>
      l.range field operator (l.operand style r low) (l.operand style r high)
  else application operator field spelling (l.singleValue style operator r)

/-- The operator that a rule names, for a dialect; an unknown one is not told. -/
def ruleOperator (dialect : Dialect) (r : Rule) : Result Operator :=
  match r.operator? with
  | some operator => .ok operator
  | none => .error (.unsupportedOperator .null (.text dialect.name) none)

/-- One rule as an expression; empty where a multi-value rule has no operands. -/
def writeRule (l : Language) (plan : FormatPlan) (r : Rule) : Result String := do
  let operator ← ruleOperator l.dialect r
  let spelling ← operator.spellIn (.text l.dialect.name)
  let field := r.field.display
  if operator = .null then return field ++ " == null"
  if operator = .notNull then return field ++ " != null"
  match ← plan.suppliedValue r operator with
  | some v => return l.suppliedRule operator field spelling v
  | none => return l.ownRule plan.style operator field spelling r

/-- What one value of a rule converts. -/
def operandConversions (style : Style) (r : Rule) (v : Value) : List Conversion :=
  if r.comparesFields then [.write v] else Sql.literalConversions style.policy v

/-- What `writeRule` converts, in either language. -/
def conversions (plan : FormatPlan) (r : Rule) : List Conversion :=
  match r.operator? with
  | none => []
  | some operator =>
    plan.sentenceConversions r operator r.field (operandConversions plan.style r)

/-- The connective of a combinator, in either case. -/
def connective (l : Language) (combinator : Value) : Result String := do
  let name := Text.lower (← combinator.requireText)
  if name == "and" then return l.conjunction
  if name == "or" then return l.disjunction
  throw (.unsupportedOperator combinator (.text l.dialect.name) none)

/-- The expressions of a group joined by its connective, in parentheses but for
the root. -/
def joinGroup (l : Language) (combinator : Value) (negated isRoot : Bool) (parts : List Value) :
    Result Value := do
  let connective ← l.connective combinator
  let joined := Text.joinWith (" " ++ connective ++ " ") (← Value.texts parts)
  return .text (if negated then "!(" ++ joined ++ ")"
    else if isRoot then joined
    else "(" ++ joined ++ ")")

/-- The writer of a language. -/
def writer (l : Language) : Writer Value where
  dialect := l.dialect
  isEmpty := Value.isNothing
  write plan r _ := do return .text (← l.writeRule plan r)
  adopt v := return v
  combine := l.joinGroup

/-- An expression that always holds. -/
def always : String := "1 == 1"

/-- A tree as an expression. -/
def format (l : Language) (plan : FormatPlan) (query : Node) (limit : DigitLimit := none) :
    Result Value := do
  let (output, _) ← (l.writer.within limit conversions).run plan query
  return output.getD (plan.fallbackOr (.text always))

end Language
end RuleTree
