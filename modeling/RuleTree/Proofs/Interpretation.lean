import RuleTree.Node.Standard

/-! # Truth values of trees

An `Interpretation` gives every rule a truth value, and every combinator besides
`and`, `xor` and `or` a meaning.  `Node.truth` is what it makes of a tree: the
members of a standard group are joined by its one combinator, those of an
interleaved group by its combinators in the order of their precedence, and a
negated group holds where it would not.  `Node.rules` lists the rules of a tree
from left to right.
-/
namespace RuleTree

/-- Truth values for rules, and meanings for the combinators that have none of
their own. -/
structure Interpretation where
  rule : Rule → Bool
  /-- What a combinator other than `and`, `xor` and `or` makes of the truth
  values of the members. -/
  other : Value → List Bool → Bool

namespace Interpretation
variable (I : Interpretation)

/-- Whether an odd number of truth values hold. -/
def parity (members : List Bool) : Bool := members.foldr Bool.xor false

/-- The truth value of members under the combinator of a name. -/
def named (name : String) (members : List Bool) : Bool :=
  if name = "and" then members.all id
  else if name = "xor" then parity members
  else if name = "or" then members.any id
  else I.other (.text name) members

/-- The truth value of members under a combinator. -/
def joined (combinator : Value) (members : List Bool) : Bool :=
  match combinator with
  | .text name => I.named name members
  | v => I.other v members

/-- A sequence of truth values as an `or` of `xor`s of `and`s, read from left to
right: `run` is the `and` that the next value may still belong to, and `odd` the
parity of those that are over in the current `xor`. -/
def ranked (odd run : Bool) : List (String × Bool) → Bool
  | [] => odd ^^ run
  | (name, b) :: rest =>
    if name = "and" then ranked odd (run && b) rest
    else if name = "xor" then ranked (odd ^^ run) b rest
    else (odd ^^ run) || ranked false b rest

/-- The truth value of a sequence, a first value and the further ones with the
combinators before them.  A single combinator joins all of them, and of several
`and` binds tighter than `xor`, and `xor` tighter than `or`. -/
def sequence (head : Bool) (tail : List (String × Bool)) : Bool :=
  match tail with
  | [] => head
  | (name, b) :: rest =>
    if rest.all fun entry => entry.1 == name then I.named name (head :: b :: rest.map (·.2))
    else ranked false head tail

/-- The truth value of a sequence given by its combinators and its members; an
empty one holds. -/
def turns (names : List String) (members : List Bool) : Bool :=
  match members with
  | [] => true
  | head :: members => I.sequence head (names.zip members)

end Interpretation

namespace Node

/-! ### What a tree says -/

mutual
/-- The truth value of a tree.  Bare nodes say nothing. -/
def truth (I : Interpretation) : Node → Bool
  | .rule r => I.rule r
  | .group combinator flags children => flags.negated ^^ I.joined combinator (truths I children)
  | .interleaved flags items =>
    flags.negated ^^ I.turns ((turnCombinators items).map combinatorName)
      (everySecond (truths I items))
  | .bare _ => false

/-- The truth values of trees. -/
def truths (I : Interpretation) : List Node → List Bool
  | [] => []
  | node :: rest => truth I node :: truths I rest
end

mutual
/-- The rules of a tree from left to right. -/
def rules : Node → List Rule
  | .rule r => [r]
  | .group _ _ children => rulesOf children
  | .interleaved _ items => rulesOf items
  | .bare _ => []

/-- The rules of trees in a row. -/
def rulesOf : List Node → List Rule
  | [] => []
  | node :: rest => rules node ++ rulesOf rest
end

theorem truths_eq_map (I : Interpretation) (nodes : List Node) :
    truths I nodes = nodes.map (truth I) := by
  induction nodes with
  | nil => rfl
  | cons node nodes ih => rw [truths, ih, List.map_cons]

theorem rulesOf_eq_flatMap (nodes : List Node) : rulesOf nodes = nodes.flatMap rules := by
  induction nodes with
  | nil => rfl
  | cons node nodes ih => rw [rulesOf, ih, List.flatMap_cons]

@[simp] theorem truth_rule (I : Interpretation) (r : Rule) : truth I (.rule r) = I.rule r := by
  rw [truth]

@[simp] theorem truth_group (I : Interpretation) (combinator : Value) (flags : GroupFlags)
    (children : List Node) : truth I (.group combinator flags children) =
      (flags.negated ^^ I.joined combinator (children.map (truth I))) := by
  rw [truth, truths_eq_map]

@[simp] theorem rules_rule (r : Rule) : rules (.rule r) = [r] := by rw [rules]

@[simp] theorem rules_bare (v : Value) : rules (.bare v) = [] := by rw [rules]

@[simp] theorem rules_group (combinator : Value) (flags : GroupFlags) (children : List Node) :
    rules (.group combinator flags children) = children.flatMap rules := by
  rw [rules, rulesOf_eq_flatMap]

@[simp] theorem rules_interleaved (flags : GroupFlags) (items : List Node) :
    rules (.interleaved flags items) = items.flatMap rules := by
  rw [rules, rulesOf_eq_flatMap]

/-- What holds of every rule and of every group whose members it holds of, holds
of every tree. -/
@[elab_as_elim]
theorem induct {P : Node → Prop} (rule : ∀ r, P (.rule r)) (bare : ∀ v, P (.bare v))
    (group : ∀ combinator flags children, (∀ child ∈ children, P child) →
      P (.group combinator flags children))
    (interleaved : ∀ flags items, (∀ item ∈ items, P item) → P (.interleaved flags items)) :
    ∀ t, P t
  | .rule r => rule r
  | .bare v => bare v
  | .group combinator flags children =>
    group combinator flags children fun child _ => induct rule bare group interleaved child
  | .interleaved flags items =>
    interleaved flags items fun item _ => induct rule bare group interleaved item

end Node
end RuleTree
