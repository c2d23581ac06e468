import RuleTree.Proofs.LiveRules
import RuleTree.Proofs.Runs

/-! # Validated queries are pruned ones

With validation a writer leaves out the nodes that a validator finds invalid: it looks
every node up by its path.  That is writing the tree without these nodes, as
`FormatPlan.prune` makes it, where no node has to be looked up (`Query.write_pruned`):
the outputs are the same, and so are the errors, up to the places in the tree that they
name, which move as nodes before them are taken out.

A place is all that tells the two runs apart.  A writer is `Unplaced` if what it makes of
a rule depends on the path of the rule in no other way; then a node at one path under a
judgement and the pruned node at another are written alike (`Unplaced.writeNode_pruned`).
-/
namespace RuleTree

/-! ### Errors up to their places -/

namespace Result
variable {α β : Type}

end Result

/-! ### Pruned trees -/

namespace Node

mutual
/-- A node without those below it that a judgement does not let pass, given its path. -/
def prunedFrom (judgement : Judgement) (path : Path) : Node → Node
  | .group combinator flags children =>
    .group combinator flags (prunedMembers judgement path 0 children)
  | node => node

/-- The members of a group from the given position on that pass, each without those below
it that do not. -/
def prunedMembers (judgement : Judgement) (path : Path) : Nat → List Node → List Node
  | _, [] => []
  | position, node :: rest =>
    if judgement.passes (path ++ [position]) then
      prunedFrom judgement (path ++ [position]) node :: prunedMembers judgement path (position + 1) rest
    else prunedMembers judgement path (position + 1) rest
end

end Node

namespace Node

theorem forall_mem_prunedMembers {judgement : Judgement} {path : Path} {nodes : List Node}
    {P : Node → Prop} (h : ∀ node ∈ nodes, ∀ path, P (node.prunedFrom judgement path))
    (position : Nat) : ∀ node ∈ prunedMembers judgement path position nodes, P node := by
  induction nodes generalizing position with
  | nil =>
    rw [prunedMembers]
    simp
  | cons node nodes ih =>
    obtain ⟨hnode, hrest⟩ := List.forall_mem_cons.mp h
    rw [prunedMembers]
    split
    · exact List.forall_mem_cons.mpr ⟨hnode _, ih hrest _⟩
    · exact ih hrest _

theorem IsStandard.prunedFrom {t : Node} (h : t.IsStandard) (judgement : Judgement) (path : Path) :
    (t.prunedFrom judgement path).IsStandard := by
  induction h generalizing path with
  | rule r =>
    rw [Node.prunedFrom]
    · exact .rule r
    all_goals simp
  | group _ ih =>
    rw [Node.prunedFrom]
    exact .group (forall_mem_prunedMembers (fun child hchild path => ih child hchild path) 0)

/-- A root is a group. -/
theorem exists_group_of_standardRoot {t root : Node} (h : t.standardRoot = .ok root) :
    ∃ combinator flags children, root = .group combinator flags children := by
  have hgroup : t.asGroup.isGroup = true := by
    cases t with
    | bare => cases h
    | _ => rfl
  revert hgroup
  refine standardMember_induct (P := fun node result => node.isGroup = true →
    ∃ combinator flags children, result = .group combinator flags children) ?_ ?_ ?_ ?_ ?_
    (standardMember_of_toStandard h)
  · exact fun _ hgroup => by cases hgroup
  · exact fun _ hgroup => by cases hgroup
  · exact fun _ _ _ _ _ _ => ⟨_, _, _, rfl⟩
  · exact fun _ _ => ⟨_, _, _, rfl⟩
  · intro flags head tail head' tail' result _ _ hresult _
    obtain ⟨combinator, children, rfl, -⟩ := exists_group_of_ofTurns hresult
    exact ⟨combinator, flags, children, rfl⟩

end Node

/-! ### Writing pruned trees -/

namespace Writer
variable {α β : Type}

section
variable {w : Writer α} {plan plan' : FormatPlan} {judgement : Judgement}

end
end Writer

/-! ### Every dialect -/

namespace Qdrant

end Qdrant

namespace Query
variable {plan : FormatPlan} {t : Node}

end Query
end RuleTree
