import RuleTree.Node
import RuleTree.Value.Items

/-! # Editing trees

Changes at a path: setting an attribute of a rule or a group, adding a member to
a group, and taking one out.  Nothing is checked, so an edited group may hold
what no reader would give it.
-/
namespace RuleTree

/-- Sets an attribute of a rule; other attributes change nothing. -/
def Rule.set (r : Rule) (v : Value) : String → Rule
  | "field" => { r with field := v }
  | "operator" => { r with operator := v }
  | "value" => { r with value := v }
  | "value_source" => { r with source := .ofValue v }
  | "disabled" => { r with disabled := v.truthy }
  | "id" => { r with id := v }
  | _ => r

/-- Sets a flag of a group; other attributes change nothing. -/
def GroupFlags.set (f : GroupFlags) (v : Value) : String → GroupFlags
  | "negated" => { f with negated := v.truthy }
  | "disabled" => { f with disabled := v.truthy }
  | "id" => { f with id := v }
  | _ => f

namespace Node

mutual
/-- The tree with the node at a path changed.  Fails where the path leaves the
tree. -/
def modify (change : Node → Result Node) (node : Node) : List Int → Result Node
  | [] => change node
  | position :: rest =>
    if position < 0 then Misuse.missingOperation.fail
    else
      match node with
      | .group combinator flags children =>
        (modifyAt change position.toNat rest children).map (.group combinator flags)
      | .interleaved flags items =>
        (modifyAt change position.toNat rest items).map (.interleaved flags)
      | _ => Misuse.missingOperation.fail

/-- The row with the node at a position, or below it, changed. -/
def modifyAt (change : Node → Result Node) (position : Nat) (rest : List Int) :
    List Node → Result (List Node)
  | [] => Misuse.missingOperation.fail
  | node :: nodes =>
    match position with
    | 0 => (modify change node rest).map (· :: nodes)
    | position + 1 => (modifyAt change position rest nodes).map (node :: ·)
end

/-- The members that a value gives to a group. -/
def membersOf (v : Value) : Result (List Node) :=
  v.elements.map fun items => items.map .bare

/-- A node with an attribute set.  A bare node has none, and what is worked out
from other attributes cannot be set. -/
def setAttribute (name : String) (v : Value) : Node → Result Node
  | .rule r =>
    match name with
    | "compares_fields" => Misuse.missingOperation.fail
    | _ => .ok (.rule (r.set v name))
  | .group combinator flags children =>
    match name with
    | "combinator" => .ok (.group v flags children)
    | "rules" => (membersOf v).map (.group combinator flags)
    | _ => .ok (.group combinator (flags.set v name) children)
  | .interleaved flags items =>
    match name with
    | "children" => Misuse.missingOperation.fail
    | "combinators" => Misuse.missingOperation.fail
    | "rules" => (membersOf v).map (.interleaved flags)
    | _ => .ok (.interleaved (flags.set v name) items)
  | .bare _ => Misuse.missingOperation.fail

/-- A group with other members. -/
def withMembers (change : List Node → Result (List Node)) : Node → Result Node
  | .group combinator flags children => (change children).map (.group combinator flags)
  | .interleaved flags items => (change items).map (.interleaved flags)
  | _ => Misuse.missingOperation.fail

/-- The row without the item at a position, counted from the end if it is
negative. -/
def removeAt (position : Int) (nodes : List Node) : Result (List Node) :=
  let i := if position < 0 then position + nodes.length else position
  if i < 0 || (nodes.length : Int) ≤ i then Misuse.outOfRange.fail
  else .ok (nodes.eraseIdx i.toNat)

/-- The tree with an attribute of the node at a path set. -/
def setAt (tree : Node) (path : List Int) (name : String) (v : Value) : Result Node :=
  tree.modify (setAttribute name v) path

/-- The tree with a member added to the group at a path. -/
def appendAt (tree : Node) (path : List Int) (member : Node) : Result Node :=
  tree.modify (withMembers fun nodes => .ok (nodes ++ [member])) path

/-- The tree without a member of the group at a path. -/
def removeFrom (tree : Node) (path : List Int) (position : Int) : Result Node :=
  tree.modify (withMembers (removeAt position)) path

end Node
end RuleTree
