import RuleTree.Clause.Tree
import RuleTree.Json.Reader
import RuleTree.Mongo.Pattern

/-! # Reading MongoDB queries

A document is the conjunction of its entries.  An entry is a condition on a
field, a logical operator with documents, or an expression that compares fields.
Entries that say nothing, such as an empty document, leave no clause.
-/
namespace RuleTree
namespace Mongo
open Clause

/-- The comparison that an operator key stands for. -/
def comparison? (key : String) : Option Operator :=
  match Dialect.operator? .mongodb key with
  | some .isIn => none
  | some .notIn => none
  | some operator => if Dialect.mongodbSpelling operator = key then some operator else none
  | none => none

/-- Whether a key is an operator and no field. -/
def isOperatorKey (key : String) : Bool := key.toList.head? == some '$'

/-- The clause of the conditions of a document: none if there are none, and no
group around a single one. -/
def conjunction (plan : ParsePlan) (depth : Nat) : List Clause → Result (Option Clause)
  | [] => .ok none
  | [c] => .ok (some c)
  | clauses => do
    plan.checkDepth depth
    return some (join .and false clauses)

/-- The junction of a logical operator; `$nor` is a negated disjunction. -/
def junction (key : String) : Junction := if key = "$and" then .and else .or

/-- The complement of a disjunction: a group that stands alone is negated itself. -/
def nor : List Clause → Result Clause
  | [.rule r] => .ok (join .or true [.rule r])
  | [c] => negate c
  | clauses => .ok (join .or true clauses)

/-! ### Fields -/

/-- The range that the two bounds of a field write together. -/
def range? (field : String) (entries : List (String × Value)) : Option Rule :=
  match Value.lookup "$gte" entries, Value.lookup "$lte" entries with
  | some low, some high => some (Rule.of field .between (.list [low, high]))
  | _, _ => none

/-- Whether an operator of a field is dealt with apart from the others: options
say nothing, and two bounds that are a range belong to it. -/
def isSkipped (isRange : Bool) (key : String) : Bool :=
  key = "$options" || isRange && (key = "$gte" || key = "$lte")

/-- The rule of an operator of a field other than a negation. -/
def operatorRule (field key : String) (v : Value) : Result Rule :=
  match key, v with
  | "$ne", .null => .ok (Rule.of field .notNull .null)
  | "$in", .list items => .ok (Rule.of field .isIn (.list items))
  | "$nin", .list items => .ok (Rule.of field .notIn (.list items))
  | "$in", _ => (ParseFault.membershipNotList key field).fail
  | "$nin", _ => (ParseFault.membershipNotList key field).fail
  | "$regex", v => Pattern.rule (.text "mongodb") (.text field) v
  | "$exists", v => .ok (Rule.of field (if v.truthy then .notNull else .null) .null)
  | key, v => match comparison? key with
    | some operator => .ok (Rule.of field operator v)
    | none => .error (.unrepresentable (.text key) (.text "mongodb"))

/-- The rule of a field and the value that it equals. -/
def equality (field : String) : Value → Rule
  | .null => Rule.of field .null .null
  | v => Rule.of field .eq v

/-- The complement of the conditions on a field. -/
def negateConditions (plan : ParsePlan) (depth : Nat) : List Clause → Result Clause
  | [c] => negate c
  | clauses => do
    plan.checkDepth depth
    return join .and true clauses

/-- The conditions on a field that an object states, given those of its
operators.  An object without any is a value that the field equals. -/
def objectConditions (field : String) (entries : List (String × Value))
    (operators : Result (List Clause)) : Result (List Clause) :=
  if entries.any fun e => isOperatorKey e.1 then do
    return ((range? field entries).map Clause.rule).toList ++ (← operators)
  else .ok [.rule (equality field (.map entries))]

mutual
/-- The conditions on a field that a value states. -/
def conditions (plan : ParsePlan) (depth : Nat) (field : String) : Value → Result (List Clause)
  | .map entries => objectConditions field entries
      (operators plan depth field (range? field entries).isSome entries)
  | v => .ok [.rule (equality field v)]

/-- The conditions on a field by its operators. -/
def operators (plan : ParsePlan) (depth : Nat) (field : String) (isRange : Bool) :
    List (String × Value) → Result (List Clause)
  | [] => .ok []
  | (key, v) :: rest =>
    if isSkipped isRange key then operators plan depth field isRange rest
    else if key = "$not" then do
      let inner ← negand plan depth field v
      let c ← negateConditions plan depth inner
      return c :: (← operators plan depth field isRange rest)
    else do
      let r ← operatorRule field key v
      return .rule r :: (← operators plan depth field isRange rest)

/-- The conditions on a field that an object negates. -/
def negand (plan : ParsePlan) (depth : Nat) (field : String) : Value → Result (List Clause)
  | .map entries => objectConditions field entries
      (operators plan depth field (range? field entries).isSome entries)
  | _ => (ParseFault.fieldNegationOfNonObject field).fail
end

/-! ### Expressions -/

/-- The operand that a value is: a text with a dollar sign names a field. -/
def operand : Value → Operand
  | .text s => match s.toList with
    | '$' :: name => .field (String.ofList name)
    | _ => .literal (.text s)
  | v => .literal v

/-- The rule of an operator of two operands. -/
def expressionRule (key : String) (left right : Value) : Result Rule :=
  match comparison? key with
  | some operator => comparison (operand left) operator (operand right) false
  | none =>
    match key, operand left, right with
    | "$in", .field f, .list items => listRule f .isIn (items.map operand)
    | _, _, _ => .error (.unrepresentable (.text key) (.text "mongodb"))

mutual
/-- The clause of an expression; true says nothing. -/
def expression : Value → Result (Option Clause)
  | .bool true => .ok none
  | .map entries => operation entries
  | _ => .error (.unrepresentable (.text "$expr") (.text "mongodb"))

/-- The clause of the one operation of an expression. -/
def operation : List (String × Value) → Result (Option Clause)
  | [(key, v)] =>
    if key = "$and" || key = "$or" then
      match v with
      | .list items => do
        return some (join (junction key) false (← expressions items))
      | _ => (ParseFault.logicalNotList key).fail
    else if key = "$not" then
      match v with
      | .list [inner] => do (← expression inner).mapM negate
      | inner => do (← expression inner).mapM negate
    else
      match v with
      | .list [left, right] => do
        return some (.rule (← expressionRule key left right))
      | _ => (ParseFault.twoArguments key).fail
  | _ => .error (.unrepresentable (.text "$expr") (.text "mongodb"))

/-- The clauses of the expressions in a list that say something. -/
def expressions : List Value → Result (List Clause)
  | [] => .ok []
  | v :: rest => do
    let c ← expression v
    return c.toList ++ (← expressions rest)
end

/-! ### Documents -/

mutual
/-- The conditions that the entries of a document state, at a depth of groups. -/
def entryClauses (plan : ParsePlan) (depth : Nat) : List (String × Value) → Result (List Clause)
  | [] => .ok []
  | (key, v) :: rest => do
    let here ←
      if key = "$and" || key = "$or" || key = "$nor" then
        (logical plan depth key v).map fun c => [c]
      else if key = "$not" then do
        let inner ← negatedDocument plan depth v
        pure (← inner.mapM negate).toList
      else if key = "$expr" then (expression v).map Option.toList
      else if isOperatorKey key then .error (.unrepresentable (.text key) (.text "mongodb"))
      else conditions plan depth key v
    return here ++ (← entryClauses plan depth rest)

/-- The document that a negation takes. -/
def negatedDocument (plan : ParsePlan) (depth : Nat) : Value → Result (Option Clause)
  | .map entries => do conjunction plan depth (← entryClauses plan depth entries)
  | _ => ParseFault.negationOfNonObject.fail

/-- The clause of a logical operator.  A negated disjunction of one document
negates it in its place. -/
def logical (plan : ParsePlan) (depth : Nat) (key : String) : Value → Result Clause
  | .list items => do
    plan.checkDepth depth
    let inner := if key = "$nor" && items.length == 1 then depth else depth + 1
    let clauses ← documents plan inner key items
    if key = "$nor" then nor clauses else return join (junction key) false clauses
  | _ => (ParseFault.logicalNotList key).fail

/-- The clauses of documents in a list that say something. -/
def documents (plan : ParsePlan) (depth : Nat) (key : String) : List Value → Result (List Clause)
  | [] => .ok []
  | v :: rest => do
    let c ← itemDocument plan depth key v
    return c.toList ++ (← documents plan depth key rest)

/-- The clause of a document in a list. -/
def itemDocument (plan : ParsePlan) (depth : Nat) (key : String) : Value → Result (Option Clause)
  | .map entries => do conjunction plan depth (← entryClauses plan depth entries)
  | _ => (ParseFault.logicalItemNotObject key).fail
end

/-- The clause of a query; none if it is empty or says nothing. -/
def clause? (plan : ParsePlan) (source : Value) (limit : DigitLimit := none) :
    Result (Option Clause) := do
  match ← Json.document "MongoDB" source limit with
  | .map entries => conjunction plan 1 (← entryClauses plan 1 entries)
  | v => (ParseFault.documentKind v.kindName).fail

/-- Ranges are two comparisons in a group of their own. -/
def traits : SourceTraits where
  rangesAsPairs := true

/-- The tree of a query. -/
def read (plan : ParsePlan) (source : Value) (limit : DigitLimit := none) : Result Node := do
  Clause.toTree traits plan (← clause? plan source limit) limit

end Mongo
end RuleTree
