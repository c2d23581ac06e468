import Mathlib.Data.List.Nodup
import RuleTree.Proofs.LiveRules

/-! # Nodes under no disabled group

A validator goes through a tree from its leaves and does not look into disabled groups:
`Node.reachedFrom` lists the nodes that it comes to.  They are the nodes of the walk that
lie below no disabled node of it (`Node.mem_reachedFrom_iff`), each under a path of its
own (`Node.nodup_reachedFrom`), and those below one of them are the nodes that are reached
from it on (`Node.mem_reachedFrom_of_prefix`).
-/
namespace RuleTree
namespace Node

mutual
/-- The nodes that lie under no disabled group of a node, given its path, children before
parents. -/
def reachedFrom (path : Path) : Node → List (Path × Node)
  | .group combinator flags children =>
    (if flags.disabled then [] else reachedMembers path 0 children)
      ++ [(path, .group combinator flags children)]
  | .interleaved flags items =>
    (if flags.disabled then [] else reachedMembers path 0 items)
      ++ [(path, .interleaved flags items)]
  | node => [(path, node)]

/-- Those of the members of a group from the given position on; combinators are none. -/
def reachedMembers (path : Path) : Nat → List Node → List (Path × Node)
  | _, [] => []
  | position, node :: rest =>
    (if node.isCombinator then [] else reachedFrom (path ++ [position]) node)
      ++ reachedMembers path (position + 1) rest
end

/-- Whether a path goes on from that of a disabled node of a walk. -/
def IsBelowDisabled (walk : List (Path × Node)) (path : Path) : Prop :=
  ∃ e ∈ walk, e.2.isDisabled = true ∧ e.1 <+: path ∧ e.1 ≠ path

section
variable {path : Path} {t : Node} {e : Path × Node}

theorem reachedFrom_eq (path : Path) (t : Node) :
    reachedFrom path t =
      (if t.isDisabled then [] else reachedMembers path 0 t.members) ++ [(path, t)] := by
  cases t with
  | group | interleaved => rw [reachedFrom]; rfl
  | rule | bare => rw [reachedFrom] <;> simp [members, reachedMembers]

/-- What is reached among members is reached from one of them on. -/
theorem mem_reachedMembers_iff {nodes : List Node} {position : Nat} :
    e ∈ reachedMembers path position nodes ↔ ∃ i node, nodes[i]? = some node ∧
      node.isCombinator = false ∧ e ∈ reachedFrom (path ++ [position + i]) node :=
  mem_gathered_iff (fun _ => by rw [reachedMembers]) fun _ _ _ => by rw [reachedMembers]

/-- A path that goes on by way of a member is not that of the group. -/
theorem ne_of_extends {position : Nat} {q : Path} (h : path ++ [position] <+: q) : path ≠ q := by
  rintro rfl
  have hlength := h.length_le
  simp only [List.length_append, List.length_singleton] at hlength
  omega

/-- Members with a path in common are the same. -/
theorem eq_of_getElem? {nodes : List Node} {q : Path} {i j : Nat} {first second : Node}
    (hfirst : nodes[i]? = some first) (hsecond : nodes[j]? = some second)
    (hi : path ++ [0 + i] <+: q) (hj : path ++ [0 + j] <+: q) : i = j ∧ first = second := by
  obtain rfl : i = j := by
    have := eq_of_append_prefix hi hj
    omega
  exact ⟨rfl, Option.some.inj (hfirst.symm.trans hsecond)⟩

/-- **Reach.**  The nodes that are reached are those of the walk below no disabled node. -/
theorem mem_reachedFrom_iff :
    e ∈ t.reachedFrom path ↔ e ∈ t.walkFrom path ∧ ¬IsBelowDisabled (t.walkFrom path) e.1 := by
  induction t using induct_members generalizing path with
  | step t ih =>
    rw [reachedFrom_eq, walkFrom_eq, List.mem_append, List.mem_singleton]
    constructor
    · rintro (he | rfl)
      · split at he
        · cases he
        rename_i henabled
        obtain ⟨i, node, hnode, hmember, he⟩ := mem_reachedMembers_iff.mp he
        obtain ⟨hwalk, hbelow⟩ := (ih node (List.mem_of_getElem? hnode)).mp he
        have hmembers := mem_walkMembers_iff.mpr ⟨i, node, hnode, hmember, hwalk⟩
        refine ⟨List.mem_cons_of_mem _ hmembers, ?_⟩
        rintro ⟨a, ha, hdisabled, hextends, hne⟩
        rcases List.mem_cons.mp ha with rfl | ha
        · exact henabled hdisabled
        · -- only the member that the node is below can be above it
          obtain ⟨j, other, hother, -, ha⟩ := mem_walkMembers_iff.mp ha
          obtain ⟨rfl, rfl⟩ := eq_of_getElem? hnode hother (prefix_of_mem_walkFrom hwalk)
            ((prefix_of_mem_walkFrom ha).trans hextends)
          exact hbelow ⟨a, ha, hdisabled, hextends, hne⟩
      · refine ⟨List.mem_cons_self, ?_⟩
        rintro ⟨a, ha, -, hextends, hne⟩
        rw [← walkFrom_eq] at ha
        exact hne (hextends.eq_of_length_le (prefix_of_mem_walkFrom ha).length_le)
    · rintro ⟨he, hbelow⟩
      rcases List.mem_cons.mp he with rfl | he
      · exact .inr rfl
      · obtain ⟨i, node, hnode, hmember, he⟩ := mem_walkMembers_iff.mp he
        have hextends := prefix_of_mem_walkFrom he
        have henabled : ¬t.isDisabled = true := fun hdisabled =>
          hbelow ⟨(path, t), List.mem_cons_self, hdisabled,
            (List.prefix_append _ _).trans hextends, ne_of_extends hextends⟩
        rw [if_neg henabled]
        refine .inl (mem_reachedMembers_iff.mpr ⟨i, node, hnode, hmember,
          (ih node (List.mem_of_getElem? hnode)).mpr ⟨he, ?_⟩⟩)
        rintro ⟨a, ha, habove⟩
        have hmembers := mem_walkMembers_iff.mpr ⟨i, node, hnode, hmember, ha⟩
        exact hbelow ⟨a, List.mem_cons_of_mem _ hmembers, habove⟩

theorem prefix_of_mem_reachedFrom (he : e ∈ t.reachedFrom path) : path <+: e.1 :=
  prefix_of_mem_walkFrom (mem_reachedFrom_iff.mp he).1

/-- A walk comes to one node by each path. -/
theorem eq_of_mem_walkFrom {q : Path} {node node' : Node} (h : (q, node) ∈ t.walkFrom path)
    (h' : (q, node') ∈ t.walkFrom path) : node = node' := by
  induction t using induct_members generalizing path with
  | step t ih =>
    rw [walkFrom_eq] at h h'
    rcases List.mem_cons.mp h with h | h <;> rcases List.mem_cons.mp h' with h' | h'
    · rw [(Prod.mk.inj h).2, (Prod.mk.inj h').2]
    · obtain ⟨_, _, -, -, hwalk⟩ := mem_walkMembers_iff.mp h'
      exact absurd (Prod.mk.inj h).1.symm (ne_of_extends (prefix_of_mem_walkFrom hwalk))
    · obtain ⟨_, _, -, -, hwalk⟩ := mem_walkMembers_iff.mp h
      exact absurd (Prod.mk.inj h').1.symm (ne_of_extends (prefix_of_mem_walkFrom hwalk))
    · obtain ⟨i, first, hfirst, -, hwalk⟩ := mem_walkMembers_iff.mp h
      obtain ⟨j, second, hsecond, -, hwalk'⟩ := mem_walkMembers_iff.mp h'
      have hextends := prefix_of_mem_walkFrom hwalk
      have hextends' := prefix_of_mem_walkFrom hwalk'
      obtain ⟨rfl, rfl⟩ := eq_of_getElem? hfirst hsecond hextends hextends'
      exact ih first (List.mem_of_getElem? hfirst) hwalk hwalk'

/-- What is reached below a node that is reached is reached from it on. -/
theorem mem_reachedFrom_of_prefix {a : Path × Node} (ha : a ∈ t.reachedFrom path)
    (he : e ∈ t.reachedFrom path) (hextends : a.1 <+: e.1) : e ∈ a.2.reachedFrom a.1 := by
  induction t using induct_members generalizing path with
  | step t ih =>
    have hwhole := he
    rw [reachedFrom_eq, List.mem_append, List.mem_singleton] at ha he
    rcases ha with ha | rfl
    · split at ha
      · cases ha
      rename_i henabled
      rw [if_neg henabled] at he
      obtain ⟨i, node, hnode, -, ha⟩ := mem_reachedMembers_iff.mp ha
      have hmember := prefix_of_mem_reachedFrom ha
      rcases he with he | rfl
      · obtain ⟨j, other, hother, -, he⟩ := mem_reachedMembers_iff.mp he
        obtain ⟨rfl, rfl⟩ := eq_of_getElem? hnode hother (hmember.trans hextends)
          (prefix_of_mem_reachedFrom he)
        exact ih node (List.mem_of_getElem? hnode) ha he
      · exact absurd rfl (ne_of_extends (hmember.trans hextends))
    · exact hwhole

/-- Members whose nodes have paths of their own have so together. -/
theorem nodup_reachedMembers {nodes : List Node} {position : Nat}
    (ih : ∀ node ∈ nodes, ∀ path, ((node.reachedFrom path).map Prod.fst).Nodup) :
    ((reachedMembers path position nodes).map Prod.fst).Nodup := by
  induction nodes generalizing position with
  | nil =>
    rw [reachedMembers]
    exact List.nodup_nil
  | cons node nodes ihn =>
    obtain ⟨ihnode, ihrest⟩ := List.forall_mem_cons.mp ih
    rw [reachedMembers]
    split
    · exact ihn ihrest
    rw [List.map_append, List.nodup_append']
    refine ⟨ihnode _, ihn ihrest, ?_⟩
    rintro q hq hq'
    obtain ⟨e, he, rfl⟩ := List.mem_map.mp hq
    obtain ⟨e', he', heq⟩ := List.mem_map.mp hq'
    obtain ⟨i, other, -, -, he'⟩ := mem_reachedMembers_iff.mp he'
    have := eq_of_append_prefix (prefix_of_mem_reachedFrom he) (heq ▸ prefix_of_mem_reachedFrom he')
    omega

/-- Nodes are reached by different paths. -/
theorem nodup_reachedFrom (path : Path) (t : Node) : ((t.reachedFrom path).map Prod.fst).Nodup := by
  induction t using induct_members generalizing path with
  | step t ih =>
    rw [reachedFrom_eq]
    split
    · simp
    · rw [List.map_append, List.nodup_append']
      refine ⟨nodup_reachedMembers ih, by simp, ?_⟩
      rintro q hq hq'
      obtain ⟨e, he, rfl⟩ := List.mem_map.mp hq
      obtain ⟨i, node, -, -, he⟩ := mem_reachedMembers_iff.mp he
      exact ne_of_extends (prefix_of_mem_reachedFrom he) (List.mem_singleton.mp hq').symm

end
end Node
end RuleTree
