import RuleTree.Node

/-! # The standard and the interleaved shape

`toStandard` gives the standard tree of any tree: the members of an interleaved
group are joined by precedence, `and` before `xor` before `or`, and a run of one
combinator becomes one group whatever the combinator is.  `toInterleaved` gives
the interleaved tree of a standard one.
-/
namespace RuleTree
namespace Node

/-- The combinators that have an order, the loosest first. -/
def precedence : List String := ["or", "xor", "and"]

/-- Cuts a sequence, a first member and the further ones with the combinators
before them, at every occurrence of a combinator. -/
def segments (combinator : String) :
    Node → List (String × Node) → List (Node × List (String × Node))
  | head, [] => [(head, [])]
  | head, (c, next) :: rest =>
    if c = combinator then (head, []) :: segments combinator next rest
    else
      match segments combinator next rest with
      | [] => [(head, [])]
      | (first, tail) :: more => (head, (c, first) :: tail) :: more

/-- Whether a sequence has a single combinator throughout. -/
def isUniform (combinator : String) (tail : List (String × Node)) : Bool :=
  tail.all fun next => next.1 == combinator

/-- Joins a sequence: a single member is itself, a uniform sequence is one
group, and any other is cut at the loosest of the levels that occurs in it. -/
def joinLevels : List String → Node → List (String × Node) → Node
  | _, head, [] => head
  | levels, head, (c, next) :: rest =>
    if isUniform c rest then ofChildren c (head :: next :: rest.map (·.2))
    else
      match levels with
      | [] => head
      | level :: tighter =>
        if ((c, next) :: rest).any fun entry => entry.1 == level then
          ofChildren level
            ((segments level head ((c, next) :: rest)).map fun s => joinLevels tighter s.1 s.2)
        else joinLevels tighter head ((c, next) :: rest)

/-- The combinators of a sequence that have no order, sorted and each once. -/
def unordered (tail : List (String × Node)) : List String :=
  ((tail.map (·.1)).filter fun c => !precedence.contains c).eraseDups.mergeSort
    fun a b => a ≤ b

/-- Joins a sequence by precedence.  A mixture with a combinator that has no
order cannot be joined. -/
def joinByPrecedence (head : Node) (tail : List (String × Node)) : Result Node :=
  match tail with
  | [] => .ok head
  | (c, _) :: rest =>
    if isUniform c rest then .ok (joinLevels precedence head tail)
    else if (unordered tail).isEmpty then .ok (joinLevels precedence head tail)
    else .error (.invalidTree (.unknownPrecedence (unordered tail)))

/-- A combinator as trees carry it: trimmed and in lower case. -/
def combinatorName : Node → String
  | .bare (.text s) => Text.lower (Text.trim s)
  | _ => ""

/-- The same members with other flags. -/
def withFlags (flags : GroupFlags) : Node → Node
  | .group combinator _ children => .group combinator flags children
  | .interleaved _ items => .interleaved flags items
  | node => node

/-- The group that a sequence of members and combinators in turns stands for. -/
def ofTurns (flags : GroupFlags) (items : List Node) : Result Node :=
  match turnMembers items with
  | [] => .ok (.group (.text "and") flags [])
  | head :: members =>
    match ((turnCombinators items).map combinatorName).zip members with
    | [] => .ok (.group (.text "and") flags [head])
    | tail => (joinByPrecedence head tail).map (withFlags flags)

mutual
/-- The standard tree of a tree.  Fails for a node that is no group, for an
interleaved group whose members and combinators do not take turns, and for a
mixture of combinators that has no order. -/
def toStandard : Node → Result Node
  | .group combinator flags children =>
    (toStandardAll children).map (.group combinator flags)
  | .interleaved flags items => do
    checkTurns items
    ofTurns flags (← toStandardAll items)
  | node => .error (.invalidTree (.notAGroup node.kindName))

/-- The nodes with the groups among them standard. -/
def toStandardAll : List Node → Result (List Node)
  | [] => .ok []
  | node :: rest => do
    let node ← match node with
      | .group combinator flags children => toStandard (.group combinator flags children)
      | .interleaved flags items => toStandard (.interleaved flags items)
      | node => pure node
    return node :: (← toStandardAll rest)
end

/-- The items with the separator between them. -/
def withBetween (separator : Node) : List Node → List Node
  | [] => []
  | [node] => [node]
  | node :: next :: rest => node :: separator :: withBetween separator (next :: rest)

mutual
/-- The interleaved tree of a tree.  Fails for a node that is no group, and
where the members and the combinator of a group cannot take turns. -/
def toInterleaved : Node → Result Node
  | .interleaved flags items => .ok (.interleaved flags items)
  | .group combinator flags children => do
    interleave flags (withBetween (.bare combinator) (← toInterleavedAll children))
  | _ => Misuse.missingOperation.fail

/-- The nodes with the standard groups among them interleaved. -/
def toInterleavedAll : List Node → Result (List Node)
  | [] => .ok []
  | node :: rest => do
    let node ← match node with
      | .group combinator flags children => toInterleaved (.group combinator flags children)
      | node => pure node
    return node :: (← toInterleavedAll rest)
end

end Node
end RuleTree
