import RuleTree.Node

/-! # Equality of trees

Two trees are equal if they have the same shape and their rules and groups agree
in everything but the ids.  Values are compared as `Value.equals` does.
-/
namespace RuleTree

/-- Whether two rules agree in everything but the ids. -/
def Rule.equals (r s : Rule) : Bool :=
  r.field.equals s.field && r.operator.equals s.operator && r.value.equals s.value
    && r.source.toValue.equals s.source.toValue && r.disabled == s.disabled

/-- Whether two groups have the same flags, whatever their ids. -/
def GroupFlags.equals (f g : GroupFlags) : Bool :=
  f.negated == g.negated && f.disabled == g.disabled

namespace Node

mutual
/-- Whether two trees are equal. -/
def equals : Node → Node → Bool
  | .rule r, m => match m with
    | .rule s => r.equals s
    | _ => false
  | .group combinator flags children, m => match m with
    | .group combinator' flags' children' =>
      combinator.equals combinator' && flags.equals flags' && allEqual children children'
    | _ => false
  | .interleaved flags items, m => match m with
    | .interleaved flags' items' => flags.equals flags' && allEqual items items'
    | _ => false
  | .bare v, m => match m with
    | .bare w => v.equals w
    | _ => false

/-- Whether two rows of trees are equal one by one. -/
def allEqual : List Node → List Node → Bool
  | [], [] => true
  | n :: ns, m :: ms => equals n m && allEqual ns ms
  | _, _ => false
end

end Node
end RuleTree
