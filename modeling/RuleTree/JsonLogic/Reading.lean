import RuleTree.Clause.Tree
import RuleTree.Json.Reader

/-! # Reading JsonLogic

Every object is one operation with its arguments; a single argument needs no
list around it.  A truth value is the empty query.
-/
namespace RuleTree
namespace JsonLogic
open Clause

/-- The name in a variable: the first item of a list, and the text of anything
else. -/
def variableName : Value → String
  | .list [] => ""
  | .list (v :: _) => v.display
  | v => v.display

/-- What a variable writes to get the text of its name. -/
def nameConversions : Value → List Conversion
  | .list [] => []
  | .list (v :: _) => [.write v]
  | v => [.write v]

/-- The operand that a value is: an object names a field by `var`. -/
def operandOf : Value → (limit : DigitLimit := none) → Result Operand
  | .map [(key, v)], limit =>
    if key = "var" then do
      limit.check (nameConversions v)
      return .field (variableName v)
    else .error (.unrepresentable (.text key) (.text "jsonlogic"))
  | .map [], _ => .error (.unrepresentable (.text "\x7b\x7d") (.text "jsonlogic"))
  | .map ((key, _) :: _), _ => .error (.unrepresentable (.text key) (.text "jsonlogic"))
  | v, _ => .ok (.literal v)

/-- The arguments of an operation. -/
def argumentsOf : Value → List Value
  | .list items => items
  | v => [v]

/-- The comparison that an operation is. -/
def comparison? (name : String) : Option Operator :=
  if name ∈ ["==", "===", "!=", "!==", "<", ">", "<=", ">="] then
    Dialect.operator? .jsonlogic name
  else none

/-- The rule of a comparison; equality with null is a null check. -/
def comparisonRule (operator : Operator) (left right : Operand) : Result Rule :=
  match left, right, operator with
  | .field f, .literal .null, .eq => .ok (Rule.of f .null .null)
  | .field f, .literal .null, .ne => .ok (Rule.of f .notNull .null)
  | left, right, operator => comparison left operator right false

/-- The rule of a comparison with any number of operands.  Three of them write a
range. -/
def chainRule (name : String) (operator : Operator) (operands : List Operand) : Result Rule :=
  match operands with
  | [left, right] => comparisonRule operator left right
  | [low, target, high] =>
    match operator, target with
    | .le, .field f => listRule f .between [low, high]
    | .le, _ => .error (.unrepresentable (.text name) (.text "jsonlogic"))
    | .lt, _ => .error (.unrepresentable (.text name) (.text "jsonlogic"))
    | _, _ => (ParseFault.binaryCount name 3).fail
  | _ => (ParseFault.binaryCount name operands.length).fail

/-- A text match of a field with a value or with another field. -/
def matchRule (field : String) (operator : Operator) : Operand → Rule
  | .field other => Rule.ofFields field operator (.text other)
  | .literal v => Rule.of field operator v

/-- The rule of `in`: membership of a field in a list, or a field that contains
a value. -/
def inRule (needle haystack : Operand) (limit : DigitLimit := none) : Result Rule :=
  match needle, haystack with
  | .field f, .literal (.list items) => do
    listRule f .isIn (← items.mapM fun v => operandOf v limit)
  | needle, .field f => .ok (matchRule f .contains needle)
  | _, _ => .error (.unrepresentable (.text "in") (.text "jsonlogic"))

/-- The rule of an operation that connects no others. -/
def operationRule (name : String) (arguments : List Value) (limit : DigitLimit := none) :
    Result Rule := do
  let operands ← arguments.mapM fun v => operandOf v limit
  match comparison? name with
  | some operator => chainRule name operator operands
  | none =>
    if name = "in" then
      match operands with
      | [needle, haystack] => inRule needle haystack limit
      | _ => (ParseFault.binaryCount name operands.length).fail
    else if Text.lower name = "startswith" || Text.lower name = "endswith" then
      match operands with
      | [.field f, v] => return matchRule f (← Operator.unmapFrom (.text name) (.text "jsonlogic")) v
      | _ => (ParseFault.fieldAndValue name).fail
    else throw (.unrepresentable (.text name) (.text "jsonlogic"))

/-- The junction of an operation that connects others. -/
def junction? (name : String) : Option Junction :=
  if name = "and" then some .and else if name = "or" then some .or else none

/-- Whether an operation is a negation. -/
def negates (name : String) : Bool := name = "!" || name = "not"

/-- Fails for a value that is no operation; the wording shows the value. -/
def refuseValue (v : Value) (limit : DigitLimit := none) : Result Clause := do
  limit.check [.write v]
  (ParseFault.notAnOperation v.inspect).fail

mutual
/-- The clause of a value, at a depth of groups. -/
def clauseOf (plan : ParsePlan) (depth : Nat) :
    Value → (limit : DigitLimit := none) → Result Clause
  | .map entries, limit => operationClause plan depth entries limit
  | v, limit => refuseValue v limit

/-- The clause of an object with one operation. -/
def operationClause (plan : ParsePlan) (depth : Nat) :
    List (String × Value) → (limit : DigitLimit := none) → Result Clause
  | [(name, v)], limit =>
    match junction? name with
    | some junction => do
      plan.checkDepth depth
      match v with
      | .list items => return join junction false (← clausesOf plan (depth + 1) items limit)
      | v => return join junction false [← clauseOf plan (depth + 1) v limit]
    | none =>
      if negates name then
        match v with
        | .list [inner] => do negate (← clauseOf plan depth inner limit)
        | .list _ => ParseFault.oneNegand.fail
        | inner => do negate (← clauseOf plan depth inner limit)
      else (operationRule name (argumentsOf v) limit).map .rule
  | entries, limit => refuseValue (.map entries) limit

/-- The clauses of the operations in a list. -/
def clausesOf (plan : ParsePlan) (depth : Nat) :
    List Value → (limit : DigitLimit := none) → Result (List Clause)
  | [], _ => .ok []
  | v :: rest, limit => do
    let c ← clauseOf plan depth v limit
    return c :: (← clausesOf plan depth rest limit)
end

/-- The clause of a source; none for a truth value. -/
def clause? (plan : ParsePlan) (source : Value) (limit : DigitLimit := none) :
    Result (Option Clause) := do
  match ← Json.document "JsonLogic" source limit with
  | .bool _ => return none
  | v => return some (← clauseOf plan 1 v limit)

/-- Ranges are operations of their own, and the root needs no group. -/
def traits : SourceTraits := {}

/-- The tree of a source. -/
def read (plan : ParsePlan) (source : Value) (limit : DigitLimit := none) : Result Node := do
  Clause.toTree traits plan (← clause? plan source limit) limit

end JsonLogic
end RuleTree
