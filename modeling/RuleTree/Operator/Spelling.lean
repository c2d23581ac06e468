import RuleTree.Error
import RuleTree.Operator

/-! # Operators in the dialects

How each dialect spells the operators (`Dialect.spelling?`), and which operator
a spelling stands for where that is unambiguous (`Dialect.operator?`).  The
spellings of text matches, null checks and multi-value operators are shared, so
readers tell those apart by the shape of the value.
-/
namespace RuleTree

/-- The languages that trees are written in. -/
inductive Dialect where
  | sql
  | parameterized
  | parameterizedNamed
  | mongodb
  | jsonlogic
  | cel
  | spel
  | naturalLanguage
  | qdrant
  deriving DecidableEq

namespace Dialect

/-- The name of a dialect. -/
def name : Dialect → String
  | .sql => "sql"
  | .parameterized => "parameterized"
  | .parameterizedNamed => "parameterized_named"
  | .mongodb => "mongodb"
  | .jsonlogic => "jsonlogic"
  | .cel => "cel"
  | .spel => "spel"
  | .naturalLanguage => "natural_language"
  | .qdrant => "qdrant"

/-- Every dialect. -/
def all : List Dialect :=
  [.sql, .parameterized, .parameterizedNamed, .mongodb, .jsonlogic, .cel, .spel,
    .naturalLanguage, .qdrant]

/-- The dialect of a name, spelled exactly. -/
def ofName? (s : String) : Option Dialect := all.find? fun d => d.name == s

/-- The keywords and signs of SQL. -/
def sqlSpelling : Operator → String
  | .eq => "="
  | .ne => "!="
  | .lt => "<"
  | .gt => ">"
  | .le => "<="
  | .ge => ">="
  | .contains | .beginsWith | .endsWith => "like"
  | .doesNotContain | .doesNotBeginWith | .doesNotEndWith => "not like"
  | .null => "is null"
  | .notNull => "is not null"
  | .isIn => "in"
  | .notIn => "not in"
  | .between => "between"
  | .notBetween => "not between"

/-- The operator keys of MongoDB documents. -/
def mongodbSpelling : Operator → String
  | .eq | .null => "$eq"
  | .ne | .notNull => "$ne"
  | .lt | .notBetween => "$lt"
  | .gt => "$gt"
  | .le => "$lte"
  | .ge | .between => "$gte"
  | .contains | .beginsWith | .endsWith => "$regex"
  | .doesNotContain | .doesNotBeginWith | .doesNotEndWith => "$regex"
  | .isIn => "$in"
  | .notIn => "$nin"

/-- The operation keys of JsonLogic. -/
def jsonlogicSpelling : Operator → String
  | .eq | .null => "=="
  | .ne | .notNull => "!="
  | .lt => "<"
  | .gt => ">"
  | .le => "<="
  | .ge => ">="
  | .contains | .doesNotContain => "in"
  | .beginsWith | .doesNotBeginWith => "startsWith"
  | .endsWith | .doesNotEndWith => "endsWith"
  | .isIn | .notIn => "in"
  | .between | .notBetween => "<="

/-- The signs and methods of CEL. -/
def celSpelling : Operator → String
  | .eq | .null => "=="
  | .ne | .notNull => "!="
  | .lt => "<"
  | .gt => ">"
  | .le => "<="
  | .ge => ">="
  | .contains | .doesNotContain => "contains"
  | .beginsWith | .doesNotBeginWith => "startsWith"
  | .endsWith | .doesNotEndWith => "endsWith"
  | .isIn | .notIn => "in"
  | .between | .notBetween => "between"

/-- SpEL tests membership by a method of the list. -/
def spelSpelling : Operator → String
  | .isIn | .notIn => "contains"
  | op => celSpelling op

/-- English phrases. -/
def phrase : Operator → String
  | .eq => "is"
  | .ne => "is not"
  | .lt => "is less than"
  | .gt => "is greater than"
  | .le => "is less than or equal to"
  | .ge => "is greater than or equal to"
  | .contains => "contains"
  | .beginsWith => "starts with"
  | .endsWith => "ends with"
  | .doesNotContain => "does not contain"
  | .doesNotBeginWith => "does not start with"
  | .doesNotEndWith => "does not end with"
  | .null => "is null"
  | .notNull => "is not null"
  | .isIn => "is one of"
  | .notIn => "is not one of"
  | .between => "is between"
  | .notBetween => "is not between"

/-- The condition kinds of Qdrant, which has no match of the start or the end
of a text. -/
def qdrantSpelling? : Operator → Option String
  | .eq | .ne => some "match"
  | .lt | .gt | .le | .ge | .between | .notBetween => some "range"
  | .contains | .doesNotContain => some "text"
  | .null | .notNull => some "is_null"
  | .isIn => some "any"
  | .notIn => some "except"
  | .beginsWith | .endsWith | .doesNotBeginWith | .doesNotEndWith => none

/-- The spelling of an operator; none where the dialect cannot express it. -/
def spelling? : Dialect → Operator → Option String
  | .sql | .parameterized | .parameterizedNamed => fun op => some (sqlSpelling op)
  | .mongodb => fun op => some (mongodbSpelling op)
  | .jsonlogic => fun op => some (jsonlogicSpelling op)
  | .cel => fun op => some (celSpelling op)
  | .spel => fun op => some (spelSpelling op)
  | .naturalLanguage => fun op => some (phrase op)
  | .qdrant => qdrantSpelling?

/-- Whether the dialect can express the operator. -/
def supports (d : Dialect) (op : Operator) : Bool := (d.spelling? op).isSome

theorem supports_of_ne_qdrant {d : Dialect} (h : d ≠ .qdrant) (op : Operator) :
    d.supports op = true := by
  cases d <;> first | rfl | exact absurd rfl h

/-- The spellings that stand for one operator, in lower case. -/
def operators : Dialect → List (String × Operator)
  | .sql => [("=", .eq), ("==", .eq), ("!=", .ne), ("<>", .ne), ("<", .lt), (">", .gt),
      ("<=", .le), (">=", .ge)]
  | .cel => [("==", .eq), ("!=", .ne), ("<", .lt), (">", .gt), ("<=", .le), (">=", .ge),
      ("contains", .contains), ("startswith", .beginsWith), ("endswith", .endsWith)]
  | .spel => [("==", .eq), ("eq", .eq), ("!=", .ne), ("ne", .ne), ("<", .lt), ("lt", .lt),
      (">", .gt), ("gt", .gt), ("<=", .le), ("le", .le), (">=", .ge), ("ge", .ge),
      ("contains", .contains), ("startswith", .beginsWith), ("endswith", .endsWith)]
  | .mongodb => [("$eq", .eq), ("$ne", .ne), ("$lt", .lt), ("$gt", .gt), ("$lte", .le),
      ("$gte", .ge), ("$in", .isIn), ("$nin", .notIn)]
  | .jsonlogic => [("==", .eq), ("===", .eq), ("!=", .ne), ("!==", .ne), ("<", .lt),
      (">", .gt), ("<=", .le), (">=", .ge), ("startswith", .beginsWith),
      ("endswith", .endsWith)]
  | _ => []

/-- The operator of a spelling, whatever its case and outer blanks. -/
def operator? (d : Dialect) (token : String) : Option Operator :=
  let key := Text.lower (Text.trim token)
  (d.operators.find? fun entry => entry.1 == key).map (·.2)

/-- The dialect that a value names; none where it names no dialect. -/
def ofValue? (v : Value) : Result (Option Dialect) := do
  v.requireKey
  return v.asText?.bind ofName?

end Dialect

namespace Operator

/-- The operator that a value names, for a dialect given by its name. -/
def resolve (operator dialect : Value) : Result Operator :=
  match ofValue? operator with
  | some op => .ok op
  | none => .error (.unsupportedOperator operator dialect none)

/-- The spelling of an operator in a dialect given by its name. -/
def spellIn (op : Operator) (dialect : Value) : Result String := do
  match (← Dialect.ofValue? dialect).bind fun d => d.spelling? op with
  | some s => return s
  | none => throw (.unsupportedOperator op.toValue dialect none)

/-- The spelling in a dialect of the operator that a value names. -/
def mapTo (operator dialect : Value) : Result String := do
  spellIn (← resolve operator dialect) dialect

/-- The operator that a token of a dialect stands for. -/
def unmapFrom (token dialect : Value) : Result Operator := do
  let d ← Dialect.ofValue? dialect
  token.requireKey
  match token.asText?.bind fun s => d.bind fun d => d.operator? s with
  | some op => return op
  | none => throw (.unrepresentable token dialect)

end Operator
end RuleTree
