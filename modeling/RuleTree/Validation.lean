import RuleTree.Field
import RuleTree.Node.Path

/-! # Validation

Whether the rules and groups of a tree make sense.  A rule needs a configured
field, an operator that the field allows, a value where the operator takes one,
and the consent of the field's own check.  A group needs an enabled child unless
empty groups are allowed, and under `strict` all its enabled children must be
valid.  Disabled nodes are valid, and nothing below a disabled group is looked
at.  The main definition is `Validator.validate`.
-/
namespace RuleTree

/-- Why a rule or a group is invalid. -/
inductive Reason where
  | unknownField
  | unknownOperator
  | operatorNotAllowed
  | emptyValue
  | emptyGroup
  | invalidChildren
  | fieldCheck
  | custom (v : Value)

namespace Reason

/-- The code of a reason. -/
def toValue : Reason → Value
  | .unknownField => .text "unknown_field"
  | .unknownOperator => .text "unknown_operator"
  | .operatorNotAllowed => .text "operator_not_allowed"
  | .emptyValue => .text "empty_value"
  | .emptyGroup => .text "empty_group"
  | .invalidChildren => .text "invalid_children"
  | .fieldCheck => .text "field_validator"
  | .custom v => v

end Reason

/-- The validity of one rule or group. -/
structure Validity where
  valid : Bool
  reasons : List Reason

namespace Validity

/-- Valid, for no reason. -/
def ok : Validity := ⟨true, []⟩

/-- Valid exactly if there is no reason against it. -/
def ofReasons (reasons : List Reason) : Validity := ⟨reasons.isEmpty, reasons⟩

/-- The validity that the check of a field stands for. -/
def ofVerdict : Verdict → Result Validity
  | .judged valid reasons => .ok ⟨valid, reasons.map .custom⟩
  | .value (.map entries) => do
    let reasons ← (Value.firstOf entries ["reasons"] (.list [])).elements
    return ⟨(Value.firstOf entries ["valid"] (.bool false)).truthy, reasons.map .custom⟩
  | .value v => .ok (if v.truthy then ok else ⟨false, [.fieldCheck]⟩)

end Validity

/-- A table of fields, and how groups are judged. -/
structure Validator where
  fields : FieldTable := []
  strict : Bool := true
  allowEmptyGroups : Bool := false

namespace Validator

/-- Whether an operator that takes a value has none to take. -/
def missesValue (operator : Operator) (value : Value) : Bool :=
  if !operator.takesValue then false
  else if operator.isMembership then value.toItems.isEmpty
  else if operator.isRange then value.bounds?.isNone
  else match value with
    | .list items => items.isEmpty
    | v => v.isBlankValue

/-- The reasons against an operator on a field that may be configured. -/
def operatorReasons (r : Rule) (field : Option Field) : Result (List Reason) :=
  match r.operator? with
  | none => .ok [.unknownOperator]
  | some operator => do
    let allowed ← match field with
      | some f => f.allows operator.name
      | none => pure true
    return (if allowed then [] else [.operatorNotAllowed])
      ++ (if missesValue operator r.value then [.emptyValue] else [])

/-- The validity of a rule, whether it is enabled or not. -/
def validateRule (v : Validator) (r : Rule) : Result Validity := do
  let field ← v.fields.find? r.field
  let unknown := if !v.fields.isEmpty && field.isNone then [Reason.unknownField] else []
  let reasons := unknown ++ (← operatorReasons r field)
  if !reasons.isEmpty then return ⟨false, reasons⟩
  match field.bind (·.check) with
  | some check => Validity.ofVerdict (← check r)
  | none => return .ok

/-- What the members of a group tell about it. -/
structure Members where
  /-- How many are enabled. -/
  enabled : Nat := 0
  /-- Whether the enabled ones are valid. -/
  valid : Bool := true
  /-- The validity of every node below the group. -/
  entries : List (Path × Validity) := []

/-- The validity of an enabled group. -/
def groupValidity (v : Validator) (members : Members) : Validity :=
  .ofReasons ((if members.enabled == 0 && !v.allowEmptyGroups then [.emptyGroup] else [])
    ++ (if v.strict && !members.valid then [.invalidChildren] else []))

mutual
/-- The validity of a node and of every node below it. -/
def validateNode (v : Validator) (path : Path) :
    Node → Result (Validity × List (Path × Validity))
  | .rule r => do
    let validity ← if r.disabled then pure Validity.ok else v.validateRule r
    return (validity, [(path, validity)])
  | .group _ flags children => do
    if flags.disabled then return (.ok, [(path, .ok)])
    let members ← validateMembers v path 0 {} children
    let validity := v.groupValidity members
    return (validity, members.entries ++ [(path, validity)])
  | .interleaved flags items => do
    if flags.disabled then return (.ok, [(path, .ok)])
    let members ← validateMembers v path 0 {} items
    let validity := v.groupValidity members
    return (validity, members.entries ++ [(path, validity)])
  | .bare _ => Misuse.missingOperation.fail

/-- Goes through the members of a group from the given position on. -/
def validateMembers (v : Validator) (path : Path) :
    Nat → Members → List Node → Result Members
  | _, members, [] => .ok members
  | position, members, .bare (.text _) :: rest =>
    validateMembers v path (position + 1) members rest
  | position, members, node :: rest => do
    let (validity, entries) ← validateNode v (path ++ [position]) node
    let entries := members.entries ++ entries
    validateMembers v path (position + 1)
      (if node.isDisabled then { members with entries := entries }
        else ⟨members.enabled + 1, members.valid && validity.valid, entries⟩) rest
end

/-- The validity of every rule and group of a tree that lies under no disabled
group, by path, children before parents. -/
def validate (v : Validator) (node : Node) : Result (List (Path × Validity)) := do
  return (← v.validateNode [] node).2

/-- Whether the root of a tree is valid. -/
def isValid (v : Validator) (node : Node) : Result Bool := do
  return (← v.validateNode [] node).1.valid

/-- Tolerates empty groups and invalid children. -/
def lenient (fields : FieldTable) : Validator := ⟨fields, false, true⟩

/-- Tolerates neither. -/
def demanding (fields : FieldTable) : Validator := ⟨fields, true, false⟩

end Validator
end RuleTree
