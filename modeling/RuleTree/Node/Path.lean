import RuleTree.Node
import RuleTree.Value.Items

/-! # Paths

A node of a tree is found by the positions of it and its ancestors among the
members of their groups.  `find?` follows a path, and `walk` lists every rule
and group with its path, parents before children.  The combinators of an
interleaved group take up positions but are not listed.
-/
namespace RuleTree
namespace Node

/-- The node at a path; none if the path leaves the tree. -/
def find? (node : Node) : List Int → Option Node
  | [] => some node
  | position :: rest =>
    if node.isGroup && 0 ≤ position then
      match node.members[position.toNat]? with
      | some child => child.find? rest
      | none => none
    else none

/-- The position that a value gives among so many members, if it lies among
them.  Only integers and truth values are positions. -/
def positionOf? (count : Nat) (v : Value) : Result (Option Nat) := do
  if ← v.lessThanInt 0 then return none
  if !(← v.lessThanInt count) then return none
  match v.asInt? with
  | some n => return some n.toNat
  | none => Misuse.wrongKind.fail

/-- The node at a path that is given as values. -/
def findAt (node : Node) : List Value → Result (Option Node)
  | [] => .ok (some node)
  | v :: rest =>
    if node.isGroup then do
      match (← positionOf? node.members.length v).bind fun i => node.members[i]? with
      | some child => child.findAt rest
      | none => return none
    else .ok none

mutual
/-- Every node with its path, parents before children. -/
def walkFrom (path : Path) : Node → List (Path × Node)
  | .group combinator flags children =>
    (path, .group combinator flags children) :: walkMembers path 0 children
  | .interleaved flags items =>
    (path, .interleaved flags items) :: walkMembers path 0 items
  | node => [(path, node)]

/-- The nodes below a group from the given position on. -/
def walkMembers (path : Path) : Nat → List Node → List (Path × Node)
  | _, [] => []
  | position, .bare (.text _) :: rest => walkMembers path (position + 1) rest
  | position, node :: rest =>
    walkFrom (path ++ [position]) node ++ walkMembers path (position + 1) rest
end

/-- Every node of a tree with its path. -/
def walk (node : Node) : List (Path × Node) := node.walkFrom []

end Node
end RuleTree
