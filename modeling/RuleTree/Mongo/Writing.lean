import RuleTree.Expression.Writing
import RuleTree.Mongo.Pattern

/-! # MongoDB documents

A tree as a query document: groups under `$and`, `$or` and `$nor`, rules as
conditions on their field, and rules between fields under `$expr`.
-/
namespace RuleTree
namespace Mongo

/-- A document with one entry. -/
def entry (key : String) (v : Value) : Value := .map [(key, v)]

/-- The key of a field. -/
def fieldKey (field : Value) : Result String := do
  field.requireKey
  return field.display

/-- A reference to a field inside an expression. -/
def reference (name : Value) : Value := .text ("$" ++ name.display)

/-- A rule between fields; empty where a range has no bounds.  Text matches
cannot be written. -/
def fieldComparison (operator : Operator) (r : Rule) : Result Value :=
  let left := reference r.field
  let compare (key : String) (right : Value) : Value := entry key (.list [left, right])
  if operator.isMembership then
    let membership := compare "$in" (.list (r.value.toItems.map reference))
    .ok (entry "$expr"
      (if operator = .notIn then entry "$not" (.list [membership]) else membership))
  else if operator.isRange then
    match r.value.bounds? with
    | none => .ok (.map [])
    | some (low, high) =>
      .ok (entry "$expr"
        (if operator = .between then
          entry "$and" (.list [compare "$gte" (reference low), compare "$lte" (reference high)])
        else
          entry "$or" (.list [compare "$lt" (reference low), compare "$gt" (reference high)])))
  else if operator.isTextMatch then
    .error (.unsupportedValue (.textAgainstField r.field operator.name))
  else .ok (entry "$expr" (compare (Dialect.mongodbSpelling operator) (reference r.value)))

/-- A condition on a field between or outside two bounds. -/
def range (operator : Operator) (low high : Value) (field : String) : Value :=
  if operator = .between then entry field (.map [("$gte", low), ("$lte", high)])
  else entry "$or" (.list [entry field (entry "$lt" low), entry field (entry "$gt" high)])

/-- A condition on a field by a pattern. -/
def patternMatch (operator : Operator) (pattern : Value) (field : String) : Value :=
  let condition := entry "$regex" pattern
  entry field (if operator.isNegatedText then entry "$not" condition else condition)

/-- A condition on a field by a comparison or a membership. -/
def comparison (operator : Operator) (v : Value) (field : String) : Value :=
  entry field (entry (Dialect.mongodbSpelling operator) v)

/-- The condition of a rule on its field, with values as the caller supplied
them; none where a multi-value rule has no operands. -/
def suppliedRule (operator : Operator) (v : Value) : Option (String → Value) :=
  if operator.isMembership then
    if v.isNoOperand then none else some (comparison operator v)
  else if operator.isRange then
    v.suppliedBounds?.map fun (low, high) => range operator low high
  else if operator.isTextMatch then some (patternMatch operator v)
  else some (comparison operator v)

/-- The condition of a rule on its field, with its own values; none where a
multi-value rule has no operands. -/
def ownRule (policy : NumberPolicy) (operator : Operator) (v : Value) : Option (String → Value) :=
  if operator.isMembership then
    match v.toItems with
    | [] => none
    | items => some (comparison operator (.list (items.map (Value.withNumbers policy))))
  else if operator.isRange then
    v.bounds?.map fun (low, high) =>
      range operator (low.withNumbers policy) (high.withNumbers policy)
  else if operator.isTextMatch then
    some (patternMatch operator (.text (Pattern.ofText operator v.display)))
  else some (comparison operator (v.withNumbers policy))

/-- The condition of a rule on its field, which is not compared with others. -/
def condition? (plan : FormatPlan) (operator : Operator) (r : Rule) :
    Result (Option (String → Value)) := do
  if operator = .null then return some fun field => entry field .null
  if operator = .notNull then return some fun field => entry field (entry "$ne" .null)
  match ← plan.suppliedValue r operator with
  | some v => return suppliedRule operator v
  | none => return ownRule plan.style.policy operator r.value

/-- One rule; the empty document where a multi-value rule has no operands. -/
def writeRule (plan : FormatPlan) (r : Rule) : Result Value := do
  let operator ← Language.ruleOperator .mongodb r
  if r.comparesFields then fieldComparison operator r
  else
    match ← condition? plan operator r with
    | none => return .map []
    | some document => return document (← fieldKey r.field)

/-- What `writeRule` converts. -/
def conversions (plan : FormatPlan) (r : Rule) : List Conversion :=
  match r.operator? with
  | none => []
  | some operator =>
    if r.comparesFields then
      .write r.field :: if operator.isTextMatch then [] else (r.operands operator).map .write
    else if operator.isNullCheck then []
    else
      match plan.suppliedValue r operator with
      | .ok none =>
        if operator.isTextMatch then [.write r.value]
        else (r.operands operator).map (.read plan.style.policy)
      | _ => []

/-- The key of a combinator, in either case. -/
def combinatorKey (combinator : Value) : Result String := do
  let name := Text.lower (← combinator.requireText)
  if name == "and" then return "$and"
  if name == "or" then return "$or"
  if name == "nor" then return "$nor"
  throw (.unsupportedOperator combinator (.text "mongodb") none)

/-- The documents of a group under its combinator. -/
def joinGroup (combinator : Value) (negated : Bool) (parts : List Value) : Result Value := do
  let joined := entry (← combinatorKey combinator) (.list parts)
  return if negated then entry "$nor" (.list [joined]) else joined

/-- The writer of documents. -/
def writer : Writer Value where
  dialect := .mongodb
  isEmpty := Value.isNothing
  write plan r _ := writeRule plan r
  adopt v := return v
  combine combinator negated _ parts := joinGroup combinator negated parts

/-- A document that every record matches. -/
def always : Value := entry "$and" (.list [entry "$expr" (.bool true)])

/-- Goes through a tree as the writer of documents does, to see whether a field
that is not a text comes to be a key. -/
def keyWriter : Writer Bool where
  dialect := .mongodb
  isEmpty := not
  write plan r _ := do
    let document ← writeRule plan r
    return !document.isNothing && !r.comparesFields && r.field.asText?.isNone
  adopt _ := return false
  combine _ _ _ parts := .ok (parts.any id)

/-- Whether the document of a tree has a key that is not a text.  No reader
takes such a document. -/
def hasForeignKey (plan : FormatPlan) (query : Node) : Result Bool := do
  let (output, _) ← keyWriter.run plan query
  return output.isSome

/-- A tree as a query document. -/
def format (plan : FormatPlan) (query : Node) (limit : DigitLimit := none) : Result Value := do
  let (output, _) ← (writer.within limit conversions).run plan query
  return output.getD (plan.fallbackOr always)

end Mongo
end RuleTree
