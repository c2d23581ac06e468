import RuleTree.Sql.Grammar
import RuleTree.Sql.Literal
import RuleTree.Clause.Tree
import RuleTree.Source.Reading

/-! # Reading SQL

What the predicates of SQL conditions mean as rules.  Patterns of `like` become
text matches by the percent signs at their ends.
-/
namespace RuleTree
namespace Sql
open Source

/-- The text that a quoted one stands for: without its quotes, and with the
doubled ones inside it single. -/
def unquoted (quote : Char) (spelling : List Char) : List Char :=
  Text.replaceAll [quote, quote] [quote] spelling.tail.dropLast

/-- The name of a field.  Double quotes alone are doubled inside a name. -/
def nameOf (f : FieldName) : String :=
  String.ofList
    (if f.isQuoted then
      if f.spelling.head? = some '"' then unquoted '"' f.spelling else f.spelling.tail.dropLast
    else f.spelling)

/-- The operand that a leaf stands for. -/
def operand : Leaf → Operand :=
  Leaf.operand nameOf (unquoted '\'')

/-- The rule of a pattern. -/
def patternRule (field : FieldName) (negated : Bool) (pattern : Leaf) : Result Rule :=
  match operand pattern with
  | .field _ => .error (.unrepresentable (.text "like") (.text "sql"))
  | .literal .null => .error (.unrepresentable (.text "like") (.text "sql"))
  | .literal v =>
    let (operator, text) := readLikePattern v.display.toList
    .ok (Rule.of (nameOf field) (if negated then operator.inverse else operator)
      (.text (String.ofList text)))

/-- The clause of a predicate. -/
def predicateClause : Predicate → Result Clause
  | .comparison left operator right =>
    comparisonClause .sql false (operand left) (String.ofList operator) (operand right)
  | .like field negated pattern => (patternRule field negated pattern).map .rule
  | .membership field negated items =>
    (Clause.listRule (nameOf field) (if negated then .notIn else .isIn)
      (items.map operand)).map .rule
  | .range field negated low high =>
    (Clause.listRule (nameOf field) (if negated then .notBetween else .between)
      [operand low, operand high]).map .rule
  | .nullCheck field negated =>
    .ok (.rule (Rule.of (nameOf field) (if negated then .notNull else .null) .null))

/-- The meaning of SQL conditions. -/
def meaning : Meaning Predicate where
  predicate := predicateClause

/-- Groups always stand in parentheses, the root too. -/
def traits : SourceTraits where
  rootInParentheses := true

/-- The tree of a condition. -/
def read (plan : ParsePlan) (source : Value) (limit : DigitLimit := none) : Result Node := do
  let clause ← readText grammar (meaning.within Predicate.leaves limit) .sql source
  Clause.toTree traits plan clause limit

end Sql
end RuleTree
