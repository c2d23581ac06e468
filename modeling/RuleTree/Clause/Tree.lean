import RuleTree.Clause
import RuleTree.Node.Path
import RuleTree.Node.Standard
import RuleTree.Options.Parse
import RuleTree.Value.DigitLimit

/-! # From clauses to trees

`Clause.toTree` turns what a reader found into a tree: literals go through the
number policy, two comparisons that write a range become the range again where
the dialect writes ranges that way, parentheses around the whole are dropped,
and nesting and field names are checked.  The tree is also written to the log, so
that none with an integer beyond the limit of digits comes out.
-/
namespace RuleTree

/-- What the sources of a dialect are like. -/
structure SourceTraits where
  /-- Ranges are written as two comparisons in a group of their own. -/
  rangesAsPairs : Bool := false
  /-- The root always stands in parentheses. -/
  rootInParentheses : Bool := false

namespace ParsePlan

/-- Fails where a group is nested deeper than the plan allows. -/
def checkDepth (plan : ParsePlan) (depth : Nat) : Result Unit :=
  match plan.maxDepth with
  | none => .ok ()
  | some limit => do
    if ← limit.lessThanInt depth then (ParseFault.tooDeep limit).fail

end ParsePlan

namespace Clause

/-- Whether the whole is a single constant, whatever the parentheses. -/
def isConstant : Clause → Bool
  | .constant _ => true
  | .group false head [] => head.isConstant
  | _ => false

/-- The root as a group, without a group around it that only the parentheses of
the dialect, or a negation inside it, have made. -/
def unwrapRoot (traits : SourceTraits) : Clause → Clause
  | .group false (.group negated head tail) [] =>
    if negated || traits.rootInParentheses then .group negated head tail
    else .group false (.group negated head tail) []
  | .group false (.empty negated) [] =>
    if negated || traits.rootInParentheses then .empty negated
    else .group false (.empty negated) []
  | .rule r => .group false (.rule r) []
  | c => c

/-- The range that a group of two comparisons writes: `f >= a and f <= b` is
between, `f < a or f > b` is not between. -/
def recoverRange? : Bool → Clause → List (Junction × Clause) → Option Rule
  | false, .rule low, [(junction, .rule high)] =>
    if low.field.equals high.field && low.source.equals high.source then
      let range (operator : Operator) : Rule :=
        { low with
          operator := operator.toValue, value := .list [low.value, high.value]
          disabled := false, id := .null }
      match junction, low.operator?, high.operator? with
      | .and, some .ge, some .le => some (range .between)
      | .or, some .lt, some .gt => some (range .notBetween)
      | _, _, _ => none
    else none
  | _, _, _ => none

/-- Whether the literals of a rule may be numbers: those of text matches are
texts, whatever they look like. -/
def readsNumbers (r : Rule) : Bool :=
  !r.comparesFields
    && (match r.operator? with
      | some operator => !operator.isTextMatch
      | none => false)

/-- A rule with its literals read by the number policy and its list value in the
shape that the plan asks for. -/
def finishRule (plan : ParsePlan) (r : Rule) : Rule :=
  let convert (v : Value) : Value := if readsNumbers r then v.withNumbers plan.policy else v
  match r.value with
  | .list items =>
    let items := items.map convert
    { r with value := if plan.listsAsArrays then .list items else .text (Value.joinItems items) }
  | v => { r with value := convert v }

/-- What finishing a rule reads and writes: its literals by the number policy, and
the items of a list that is stored in one text. -/
def finishing (plan : ParsePlan) (r : Rule) : List Conversion :=
  let read (v : Value) : List Conversion := if readsNumbers r then [.read plan.policy v] else []
  match r.value with
  | .list items =>
    items.flatMap fun v => read v ++ if plan.listsAsArrays then [] else [.write v]
  | v => read v

/-- The node of a rule that is finished. -/
def finish (plan : ParsePlan) (r : Rule) (limit : DigitLimit := none) : Result Node := do
  limit.check (finishing plan r)
  return .rule (finishRule plan r)

@[simp] theorem finish_none (plan : ParsePlan) (r : Rule) :
    finish plan r = .ok (.rule (finishRule plan r)) := rfl

/-- The rule that a member of a group is or writes, if any. -/
def recovered? (traits : SourceTraits) (negated : Bool) (head : Clause)
    (tail : List (Junction × Clause)) : Option Rule :=
  if traits.rangesAsPairs then recoverRange? negated head tail else none

mutual
/-- The node of a member of a group that is nested so deep. -/
def toMember (traits : SourceTraits) (plan : ParsePlan) (depth : Nat) :
    Clause → (limit : DigitLimit := none) → Result Node
  | .rule r, limit => finish plan r limit
  | .constant comparison, _ => (ParseFault.nestedConstant comparison).fail
  | .empty negated, _ => do
    plan.checkDepth (depth + 1)
    return .interleaved { negated := negated } []
  | .group negated head tail, limit =>
    match recovered? traits negated head tail with
    | some r => finish plan r limit
    | none => do
      plan.checkDepth (depth + 1)
      let first ← toMember traits plan (depth + 1) head limit
      return .interleaved { negated := negated }
        (first :: (← toTurns traits plan (depth + 1) tail limit))

/-- The combinators and members of a group after its first member. -/
def toTurns (traits : SourceTraits) (plan : ParsePlan) (depth : Nat) :
    List (Junction × Clause) → (limit : DigitLimit := none) → Result (List Node)
  | [], _ => .ok []
  | (junction, c) :: rest, limit => do
    let member ← toMember traits plan depth c limit
    return .bare (.text junction.name) :: member :: (← toTurns traits plan depth rest limit)
end

/-- The interleaved group of a root. -/
def toGroup (traits : SourceTraits) (plan : ParsePlan) :
    Clause → (limit : DigitLimit := none) → Result Node
  | .group negated head tail, limit => do
    plan.checkDepth 1
    let first ← toMember traits plan 1 head limit
    return .interleaved { negated := negated } (first :: (← toTurns traits plan 1 tail limit))
  | .empty negated, _ => do
    plan.checkDepth 1
    return .interleaved { negated := negated } []
  | c, limit => do
    plan.checkDepth 1
    return .interleaved {} [← toMember traits plan 1 c limit]

/-- The fields that a rule names. -/
def namedFields (r : Rule) : List Value :=
  r.field :: (if r.comparesFields then r.value.toItems else [])

/-- Fails where a rule of the tree names a field that is not configured. -/
def checkFields (table : FieldTable) (tree : Node) : Result Unit :=
  tree.walk.forM fun (path, node) =>
    match node with
    | .rule r => (namedFields r).forM fun name => do
        match ← table.find? name with
        | some _ => pure ()
        | none => throw (.unknownField name path)
    | _ => pure ()

/-- The tree of a clause; no clause at all and a constant are the empty query. -/
def toTree (traits : SourceTraits) (plan : ParsePlan) (root : Option Clause)
    (limit : DigitLimit := none) : Result Node := do
  let root := match root with
    | none => .empty false
    | some c => if c.isConstant then .empty false else c
  let group ← toGroup traits plan (unwrapRoot traits root) limit
  let tree ← if plan.interleaved then pure group else group.toStandard
  if !plan.fields.isEmpty then checkFields plan.fields tree
  limit.check (tree.lineValues.map .write)
  return tree

end Clause
end RuleTree
