import RuleTree.Node
import RuleTree.Operator.Spelling

/-! # Clauses

What every reader makes of its source before a tree is built: rules with their
literal values, constant comparisons such as `1 = 1`, and groups that are
sequences of members with `and` and `or` between them.  `negate` complements a
clause, by the operator of a rule and by the flag of a group.
-/
namespace RuleTree

/-- What stands between two members of a sequence. -/
inductive Junction where
  | and
  | or
  deriving DecidableEq

/-- The name of a junction, as trees carry it. -/
def Junction.name : Junction → String
  | .and => "and"
  | .or => "or"

/-- Either side of a comparison. -/
inductive Operand where
  | field (name : String)
  | literal (v : Value)

/-- A source before it is a tree. -/
inductive Clause where
  | rule (r : Rule)
  /-- A comparison of two equal literals, in its own words. -/
  | constant (comparison : String)
  | empty (negated : Bool)
  | group (negated : Bool) (head : Clause) (tail : List (Junction × Clause))

namespace Clause

/-- The group of clauses with one junction between them. -/
def join (junction : Junction) (negated : Bool) : List Clause → Clause
  | [] => .empty negated
  | head :: rest => .group negated head (rest.map fun c => (junction, c))

/-- The rule with the inverse operator. -/
def invertRule (r : Rule) : Rule :=
  match r.operator? with
  | some operator => { r with operator := operator.inverse.toValue }
  | none => r

/-- The complement of a clause.  A constant has none. -/
def negate : Clause → Result Clause
  | .rule r => .ok (.rule (invertRule r))
  | .constant comparison => (ParseFault.negatedConstant comparison).fail
  | .empty negated => .ok (.empty !negated)
  | .group negated head tail => .ok (.group (!negated) head tail)

/-- Whether two literals are equal and of one kind. -/
def sameLiteral (v w : Value) : Bool := v.kindName == w.kindName && v.equals w

/-- The rule of a comparison.  A literal on the left exchanges the operands, and
two fields make a rule between fields.  With `nullChecks`, equality with null is
a null check. -/
def comparison (left : Operand) (operator : Operator) (right : Operand)
    (nullChecks : Bool) : Result Rule :=
  match left, right with
  | .field f, .field g => .ok (Rule.ofFields f operator (.text g))
  | .field f, .literal v => .ok (against f operator v)
  | .literal v, .field f => .ok (against f (operator.flipped?.getD operator) v)
  | .literal v, .literal w => (ParseFault.twoLiterals v operator.name w).fail
where
  /-- The rule of a comparison of a field with a literal. -/
  against (field : String) (operator : Operator) (v : Value) : Rule :=
    match nullChecks, v, operator with
    | true, .null, .eq => Rule.of field .null .null
    | true, .null, .ne => Rule.of field .notNull .null
    | _, v, operator => Rule.of field operator v

/-- The names of operands that are all fields. -/
def fieldNames : List Operand → Option (List String)
  | [] => some []
  | .field f :: rest => (fieldNames rest).map (f :: ·)
  | .literal _ :: _ => none

/-- The values of operands that are all literals. -/
def literals : List Operand → Option (List Value)
  | [] => some []
  | .literal v :: rest => (literals rest).map (v :: ·)
  | .field _ :: _ => none

/-- A membership or range rule, with literals or with fields alone. -/
def listRule (field : String) (operator : Operator) (operands : List Operand) : Result Rule :=
  match literals operands, fieldNames operands with
  | some values, _ => .ok (Rule.of field operator (.list values))
  | none, some names => .ok (Rule.ofFields field operator (.list (names.map .text)))
  | none, none => (ParseFault.mixedOperands field operator.name).fail

/-- The rule of a text method called on a field. -/
def methodRule (dialect : Dialect) (field method : String) (arguments : List Operand) :
    Result Rule := do
  let operator ← Operator.unmapFrom (.text method) (.text dialect.name)
  if !operator.isTextMatch then throw (.unrepresentable (.text method) (.text dialect.name))
  match arguments with
  | [.field g] => return Rule.ofFields field operator (.text g)
  | [.literal v] => return Rule.of field operator v
  | _ => (ParseFault.argumentCount method arguments.length).fail

@[simp] theorem negate_rule (r : Rule) : negate (.rule r) = .ok (.rule (invertRule r)) := rfl

@[simp] theorem negate_group (negated : Bool) (head : Clause) (tail : List (Junction × Clause)) :
    negate (.group negated head tail) = .ok (.group (!negated) head tail) := rfl

end Clause
end RuleTree
