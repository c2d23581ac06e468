import RuleTree.Node.Standard
import RuleTree.Options.Format
import RuleTree.Value.DigitLimit

/-! # Writing trees

A tree is written from its leaves: every enabled rule by the dialect's own
writer or by the caller's, every group by joining the outputs of its members
that are not empty.  A `Writer` is what a dialect adds to that, and
`Writer.run` goes through a tree, depth first and from left to right.  The
parameters that rules bind are collected on the way in `Bindings`.
-/
namespace RuleTree

/-- What a caller's own way to write a rule is told in one call. -/
structure RuleCall where
  rule : Rule
  style : Style
  context : RuleContext

/-- The parameters bound so far in one run, and what it has asked the caller's
functions for. -/
structure Bindings where
  /-- The parameters bound by position, in order. -/
  params : List Value := []
  /-- The parameters bound by name, in order. -/
  named : List (String × Value) := []
  /-- How many have been bound. -/
  count : Nat := 0
  /-- The fields that named parameters were asked for, the last one first. -/
  asked : List Value := []
  /-- The calls of the caller's function for rules, in order. -/
  called : List RuleCall := []

/-- A step of writing. -/
abbrev Write (α : Type) := StateT Bindings (Except Error) α

/-- Calls a caller's function for a rule, and notes that it was called. -/
def RuleHook.call (hook : RuleHook) (c : RuleCall) : Write (Option Value) := do
  modify fun bindings => { bindings with called := bindings.called ++ [c] }
  hook c.rule c.style c.context

/-- What a dialect adds to going through a tree. -/
structure Writer (α : Type) where
  dialect : Dialect
  /-- Whether an output is left out of its group. -/
  isEmpty : α → Bool
  /-- The output of a rule. -/
  write : FormatPlan → Rule → Option RuleContext → Write α
  /-- The output of a rule that the caller's function leaves to the library. -/
  leave : FormatPlan → Rule → Option RuleContext → Write α := write
  /-- The output of a rule that the caller wrote. -/
  adopt : Value → Write α
  /-- The output of a group from those of its members, given its combinator,
  its negation and whether it is the root. -/
  combine : Value → Bool → Bool → List α → Result α

namespace FormatPlan

/-- The plan with texts taken for numbers in the values of number fields. -/
def forField (plan : FormatPlan) (field : Option Field) : Result FormatPlan := do
  match field with
  | none => return plan
  | some f =>
    if (← f.isNumeric) && plan.style.policy == .never then
      return { plan with style := { plan.style with policy := .strict } }
    return plan

/-- The configuration of the field of a rule, if fields are configured. -/
def fieldOf (plan : FormatPlan) (r : Rule) (path : Path) : Result (Option Field) := do
  if plan.style.fields.isEmpty then return none
  match ← plan.style.fields.find? r.field with
  | some f => return some f
  | none => throw (.unknownField r.field path)

/-- The validator of the plan; without one of its own it judges by the fields
and tolerates invalid children. -/
def validatorOrDefault (plan : FormatPlan) : Result Validator :=
  match plan.validator with
  | .given v => .ok v
  | .unusable => Misuse.missingOperation.fail
  | _ => .ok { fields := plan.style.fields, strict := false }

end FormatPlan

/-- The judgement of a validator, if there was one. -/
abbrev Judgement := Option (List (Path × Validity))

namespace Judgement

/-- Whether the judgement lets a node pass; it does where it says nothing. -/
def passes (judgement : Judgement) (path : Path) : Bool :=
  match judgement with
  | none => true
  | some entries =>
    match entries.find? fun entry => entry.1 == path with
    | some entry => entry.2.valid
    | none => true

end Judgement

namespace Writer
variable {α : Type}

/-- Whether the dialect can express the operator of a rule. -/
def canExpress (w : Writer α) (r : Rule) : Bool :=
  match r.operator? with
  | some operator => w.dialect.supports operator
  | none => false

/-- The output of an enabled rule, by the caller's writer or by the dialect's. -/
def writeRule (w : Writer α) (plan : FormatPlan) (path : Path) (r : Rule) : Write α := do
  let field ← plan.fieldOf r path
  if !w.canExpress r then throw (.unsupportedOperator r.operator (.text w.dialect.name) (some path))
  let context : RuleContext := ⟨path, (← get).count, field⟩
  let plan ← plan.forField field
  match plan.ruleHook with
  | .given hook =>
    match ← hook.call ⟨r, plan.style, context⟩ with
    | some v => w.adopt v
    | none => w.leave plan r context
  | .unusable => throw (.misuse .wrongKind)
  | _ => w.write plan r context

mutual
/-- The output of a node; none where there is nothing to write. -/
def writeNode (w : Writer α) (plan : FormatPlan) (judgement : Judgement) (path : Path) :
    Node → Write (Option α)
  | .rule r => do
    if r.disabled || !judgement.passes path then return none
    let output ← w.writeRule plan path r
    return if w.isEmpty output then none else some output
  | .group combinator flags children => do
    if flags.disabled || !judgement.passes path then return none
    match ← writeMembers w plan judgement path 0 children with
    | [] => return none
    | parts =>
      let output ← w.combine combinator flags.negated path.isEmpty parts
      return if w.isEmpty output then none else some output
  | node => throw (.invalidTree (.unexpectedNode node.kindName path))

/-- The outputs of the members of a group from the given position on. -/
def writeMembers (w : Writer α) (plan : FormatPlan) (judgement : Judgement) (path : Path) :
    Nat → List Node → Write (List α)
  | _, [] => return []
  | position, node :: rest => do
    let output ← writeNode w plan judgement (path ++ [position]) node
    return output.toList ++ (← writeMembers w plan judgement path (position + 1) rest)
end

/-- The output of a tree with the parameters bound on the way. -/
def run (w : Writer α) (plan : FormatPlan) (query : Node) : Result (Option α × Bindings) := do
  let root ← match query with
    | .rule r => pure (Node.ofChildren "and" [.rule r])
    | node => node.toStandard
  let judgement ← if plan.validate then do
      pure (some (← (← plan.validatorOrDefault).validate root))
    else pure none
  (w.writeNode plan judgement [] root).run {}

end Writer

/-! ### Long integers -/

/-- The writer that makes a rule or joins a group only where all that it reads and
writes for it is within the limit of digits. -/
def Writer.within {α : Type} (w : Writer α) (limit : DigitLimit)
    (conversions : FormatPlan → Rule → List Conversion)
    (joining : Value → List Conversion := fun _ => []) : Writer α :=
  match limit with
  | none => w
  | some _ => { w with
      write := fun plan r context => do
        (limit.check (conversions plan r) : Result Unit)
        w.write plan r context
      leave := fun plan r context => do
        (limit.check (conversions plan r) : Result Unit)
        w.leave plan r context
      combine := fun combinator negated isRoot parts => do
        limit.check (joining combinator)
        w.combine combinator negated isRoot parts }

@[simp] theorem Writer.within_none {α : Type} (w : Writer α)
    (conversions : FormatPlan → Rule → List Conversion) (joining : Value → List Conversion) :
    w.within none conversions joining = w := rfl

/-! ### Outputs that are values -/

namespace Value

/-- Nothing: null, the empty text, an empty map or an empty list. -/
def isNothing : Value → Bool
  | .null => true
  | .text s => s == ""
  | .map entries => entries.isEmpty
  | .list items => items.isEmpty
  | _ => false

/-- The texts of values that must all be texts. -/
def texts : List Value → Result (List String)
  | [] => .ok []
  | .text s :: rest => do
    return s :: (← texts rest)
  | _ :: _ => Misuse.wrongKind.fail

theorem texts_map (ss : List String) : texts (ss.map .text) = .ok ss := by
  induction ss with
  | nil => rfl
  | cons s ss ih =>
    rw [List.map_cons, texts, ih]
    rfl

end Value

namespace FormatPlan

/-- What is written for an empty query. -/
def fallbackOr (plan : FormatPlan) (usual : Value) : Value :=
  match plan.fallback with
  | .null => usual
  | v => v

/-- The value that the caller's value writer supplies for a rule.  Null checks
and rules between fields are not passed to it. -/
def suppliedValue (plan : FormatPlan) (r : Rule) (operator : Operator) :
    Result (Option Value) :=
  if r.comparesFields || !operator.takesValue then .ok none
  else
    match plan.valueHook with
    | .absent => .ok none
    | .given hook => (hook r plan.style).map some
    | _ => Misuse.wrongKind.fail

end FormatPlan

namespace Value

/-- The two bounds of a range in a supplied value; none if one is missing or
empty. -/
def suppliedBounds? (v : Value) : Option (Value × Value) :=
  match v with
  | .list (low :: high :: _) =>
    if low.isBlankValue || high.isBlankValue then none else some (low, high)
  | .list _ => none
  | v => v.bounds?

/-- Whether a supplied value leaves a multi-value rule without operands. -/
def isNoOperand : Value → Bool
  | .list items => items.isEmpty
  | v => v.isBlankValue

end Value

/-- What a rule converts whose value is as the caller supplied it, in a sentence
about the subject; nothing where a multi-value rule has no operands. -/
def Value.suppliedConversions (operator : Operator) (subject v : Value) : List Conversion :=
  if operator.isMembership then
    if v.isNoOperand then [] else [.write subject, .write v]
  else if operator.isRange then
    match v.suppliedBounds? with
    | none => []
    | some (low, high) => [.write subject, .write low, .write high]
  else [.write subject, .write v]

/-- What a rule converts in a sentence about the subject, given what one of its
values does.  Text matches take their value as a text. -/
def FormatPlan.sentenceConversions (plan : FormatPlan) (r : Rule) (operator : Operator)
    (subject : Value) (one : Value → List Conversion) : List Conversion :=
  if operator.isNullCheck then [.write subject]
  else
    match plan.suppliedValue r operator with
    | .error _ => []
    | .ok (some v) => Value.suppliedConversions operator subject v
    | .ok none =>
      if operator.isTextMatch && !r.comparesFields then [.write subject, .write r.value]
      else
        match r.operands operator with
        | [] => []
        | operands => .write subject :: operands.flatMap one
end RuleTree
