import RuleTree.Operator
import RuleTree.Value.Items

/-! # Rule trees

A tree is a rule or a group.  A standard group joins all its children by one
combinator; an interleaved group is a sequence in which members and combinators
take turns, so that `a and b or c` needs no grouping.  A value that is neither a
rule nor a group is a bare node: a text is a combinator of an interleaved group,
and anything else, or a text elsewhere, is a fault that the operations report.
-/
namespace RuleTree

/-- What the value of a rule is. -/
inductive ValueSource where
  /-- A literal. -/
  | value
  /-- The name of another field. -/
  | field
  /-- Any other source is taken for a literal. -/
  | other (given : Value)

namespace ValueSource

/-- The source that a value names. -/
def ofValue : Value → ValueSource
  | .text "value" => .value
  | .text "field" => .field
  | v => .other v

/-- The name of a source. -/
def toValue : ValueSource → Value
  | .value => .text "value"
  | .field => .text "field"
  | .other v => v

/-- Whether the value names another field. -/
def isField : ValueSource → Bool
  | .field => true
  | _ => false

/-- Whether two sources have the same name. -/
def equals : ValueSource → ValueSource → Bool
  | .value, .value => true
  | .field, .field => true
  | .other v, .other w => v.equals w
  | _, _ => false

end ValueSource

/-- A condition on one field. -/
structure Rule where
  field : Value
  operator : Value
  value : Value := .text ""
  source : ValueSource := .value
  disabled : Bool := false
  /-- Null where the rule has none. -/
  id : Value := .null

namespace Rule

/-- The rule `field operator value` on texts and literals. -/
def of (field : String) (operator : Operator) (value : Value) : Rule :=
  { field := .text field, operator := operator.toValue, value := value }

/-- The rule `field operator other` between two fields. -/
def ofFields (field : String) (operator : Operator) (value : Value) : Rule :=
  { field := .text field, operator := operator.toValue, value := value, source := .field }

/-- The operator that the rule names. -/
def operator? (r : Rule) : Option Operator := Operator.ofValue? r.operator

/-- Whether the rule compares its field with other fields. -/
def comparesFields (r : Rule) : Bool := r.source.isField

/-- The values of a rule that stand one by one in an output: the items of a
membership, the bounds of a range, or its only value. -/
def operands (r : Rule) (operator : Operator) : List Value :=
  if operator.isMembership then r.value.toItems
  else if operator.isRange then
    match r.value.bounds? with
    | none => []
    | some (low, high) => [low, high]
  else [r.value]

end Rule

/-- What a group has besides its members. -/
structure GroupFlags where
  negated : Bool := false
  disabled : Bool := false
  /-- Null where the group has none. -/
  id : Value := .null

/-- A node of a tree. -/
inductive Node where
  | rule (r : Rule)
  | group (combinator : Value) (flags : GroupFlags) (children : List Node)
  | interleaved (flags : GroupFlags) (items : List Node)
  | bare (v : Value)

namespace Node

/-- The standard group of texts and children without flags. -/
def ofChildren (combinator : String) (children : List Node) : Node :=
  .group (.text combinator) {} children

/-- The name of the kind of a node, as messages give it. -/
def kindName : Node → String
  | .rule _ => "Rule"
  | .group _ _ _ => "RuleGroup"
  | .interleaved _ _ => "InterleavedRuleGroup"
  | .bare v => v.kindName

/-- Whether the node has members. -/
def isGroup : Node → Bool
  | .group _ _ _ => true
  | .interleaved _ _ => true
  | _ => false

/-- Whether the node is a combinator of an interleaved group. -/
def isCombinator : Node → Bool
  | .bare (.text _) => true
  | _ => false

/-- Whether a rule or a group is disabled; a bare node is not. -/
def isDisabled : Node → Bool
  | .rule r => r.disabled
  | .group _ flags _ => flags.disabled
  | .interleaved flags _ => flags.disabled
  | .bare _ => false

/-- The members of a group in order, the combinators of an interleaved one
among them. -/
def members : Node → List Node
  | .group _ _ children => children
  | .interleaved _ items => items
  | _ => []

/-! ### Trees on one line -/

mutual
/-- A tree on one line: a rule as its field, operator and value, a group as its
combinator applied to the list of its members, and `NOT` or `DISABLED` in front
where a flag is set. -/
def summary : Node → String
  | .rule r =>
    (if r.disabled then "DISABLED " else "") ++ r.field.display ++ " " ++ r.operator.display
      ++ " " ++ r.value.inspect
  | .group combinator flags children =>
    (if flags.negated then "NOT " else "") ++ combinator.display
      ++ "([" ++ Text.joinWith ", " (summaries children) ++ "])"
  | .interleaved flags items =>
    (if flags.negated then "NOT " else "") ++ "IC([" ++ Text.joinWith ", " (summaries items)
      ++ "])"
  | .bare v => v.inspect

/-- The members of a group, each on one line. -/
def summaries : List Node → List String
  | [] => []
  | node :: rest => summary node :: summaries rest
end

mutual
/-- The values that are written on the line of a tree. -/
def lineValues : Node → List Value
  | .rule r => [r.field, r.operator, r.value]
  | .group combinator _ children => combinator :: lineValuesOf children
  | .interleaved _ items => lineValuesOf items
  | .bare v => [v]

/-- The values that are written on the lines of the members of a group. -/
def lineValuesOf : List Node → List Value
  | [] => []
  | node :: rest => lineValues node ++ lineValuesOf rest
end

/-! ### Members and combinators in turns -/

/-- The items at the even positions. -/
def everySecond {α : Type} : List α → List α
  | [] => []
  | [x] => [x]
  | x :: _ :: rest => x :: everySecond rest

/-- The members of a sequence in which members and combinators take turns. -/
def turnMembers (items : List Node) : List Node := everySecond items

/-- The combinators of a sequence in which members and combinators take turns. -/
def turnCombinators (items : List Node) : List Node := everySecond items.tail

/-- Fails unless the items from the given position on take turns, with members
at the even positions. -/
def checkTurnsFrom : Nat → List Node → Result Unit
  | _, [] => .ok ()
  | position, item :: rest =>
    if position % 2 = 1 then
      match item with
      | .bare (.text _) => checkTurnsFrom (position + 1) rest
      | _ => .error (.invalidTree (.notACombinator position item.kindName))
    else
      match item with
      | .rule _ => checkTurnsFrom (position + 1) rest
      | .interleaved _ _ => checkTurnsFrom (position + 1) rest
      | _ => .error (.invalidTree (.notAMember position item.kindName))

/-- Fails unless members and combinators take turns and a member comes last. -/
def checkTurns (items : List Node) : Result Unit :=
  if !items.isEmpty && items.length % 2 == 0 then
    .error (.invalidTree (.evenLength items.length))
  else
    checkTurnsFrom 0 items

/-- The interleaved group of the items, if they take turns. -/
def interleave (flags : GroupFlags) (items : List Node) : Result Node := do
  checkTurns items
  return .interleaved flags items

end Node
end RuleTree
