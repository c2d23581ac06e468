import RuleTree.Proofs.LiveRules

/-! # Walks and paths

A path says where a node of a tree is by positions among members, combinators counted
(`Node.Holds`).  The walk lists each node with its path, none twice: the paths grow in the
order of dictionaries, so a group comes before what is below it (`pairwise_lt_walk`).

Following a path and walking agree (`walk_findAt`).  Every path of the walk is followed to
the node that it is listed with; and of the rows of integers, negative and too large ones
among them, those that lead to a node are the paths of the walk.  What another row may lead
to is a combinator.
-/
namespace RuleTree
namespace Node

/-- A node holds itself and what its members hold.  A combinator is not held. -/
inductive Holds : Node → Path → Node → Prop where
  | here (t : Node) : Holds t [] t
  | member {t m node : Node} {position : Nat} {path : Path} :
      t.members[position]? = some m → m.isCombinator = false → Holds m path node →
      Holds t (position :: path) node

section
variable {t node : Node} {path rest p q : Path}

/-! ### The nodes of the walk -/

/-- From a node on, what it holds is walked. -/
theorem mem_walkFrom_iff :
    (q, node) ∈ t.walkFrom path ↔ ∃ rest, q = path ++ rest ∧ t.Holds rest node := by
  induction t using induct_members generalizing path with
  | step t ih =>
    rw [walkFrom_eq, List.mem_cons, mem_walkMembers_iff]
    constructor
    · rintro (heq | ⟨i, m, hm, hmember, he⟩)
      · obtain ⟨rfl, rfl⟩ := Prod.mk.inj heq
        exact ⟨[], by simp, .here _⟩
      · obtain ⟨rest, rfl, hheld⟩ := (ih m (List.mem_of_getElem? hm)).mp he
        exact ⟨i :: rest, by simp, .member hm hmember hheld⟩
    · rintro ⟨rest, rfl, hheld⟩
      cases hheld with
      | here => exact .inl (by simp)
      | @member _ m _ i rest hm hmember hheld =>
        exact .inr ⟨i, m, hm, hmember, (ih m (List.mem_of_getElem? hm)).mpr ⟨rest, by simp, hheld⟩⟩

theorem mem_walk_iff : (path, node) ∈ t.walk ↔ t.Holds path node := by
  rw [walk, mem_walkFrom_iff]
  simp

/-! ### The order of the walk -/

/-- Paths by way of an earlier member come first. -/
theorem lt_of_extends {i j : Nat} (hij : i < j) (hp : path ++ [i] <+: p) (hq : path ++ [j] <+: q) :
    p < q := by
  obtain ⟨p', rfl⟩ := hp
  obtain ⟨q', rfl⟩ := hq
  rw [List.append_assoc, List.append_assoc]
  exact List.append_left_lt (List.cons_lt_cons_iff.mpr (.inl hij))

/-- A path comes before those that go on from it. -/
theorem lt_of_extends_self {j : Nat} (hq : path ++ [j] <+: q) : path < q := by
  obtain ⟨q', rfl⟩ := hq
  have hlt : path ++ [] < path ++ ([j] ++ q') := List.append_left_lt (List.nil_lt_cons _ _)
  rwa [List.append_nil, ← List.append_assoc] at hlt

/-- No path goes on to one that comes before it. -/
theorem not_prefix_of_lt (h : p < q) : ¬q <+: p := fun hprefix =>
  List.not_lt.mpr hprefix.le h

/-- Members are walked in order if each of them is. -/
theorem pairwise_lt_walkMembers {nodes : List Node} {position : Nat}
    (ih : ∀ m ∈ nodes, ∀ path, ((walkFrom path m).map Prod.fst).Pairwise (· < ·)) :
    ((walkMembers path position nodes).map Prod.fst).Pairwise (· < ·) := by
  induction nodes generalizing position with
  | nil => simp [walkMembers]
  | cons m nodes ihn =>
    obtain ⟨ihm, ihrest⟩ := List.forall_mem_cons.mp ih
    rw [walkMembers_cons, List.map_append, List.pairwise_append]
    refine ⟨?_, ihn ihrest, ?_⟩
    · split
      · exact .nil
      · exact ihm _
    · simp only [List.mem_map, forall_exists_index, and_imp]
      rintro _ e he rfl _ e' he' rfl
      split at he
      · cases he
      · obtain ⟨j, hj, hextends⟩ :=
          exists_prefix_of_mem_walkMembers (fun _ _ _ => prefix_of_mem_walkFrom) he'
        exact lt_of_extends (by omega) (prefix_of_mem_walkFrom he) hextends

theorem pairwise_lt_walkFrom (t : Node) (path : Path) :
    ((t.walkFrom path).map Prod.fst).Pairwise (· < ·) := by
  induction t using induct_members generalizing path with
  | step t ih =>
    rw [walkFrom_eq, List.map_cons, List.pairwise_cons]
    refine ⟨?_, pairwise_lt_walkMembers ih⟩
    simp only [List.mem_map, forall_exists_index, and_imp]
    rintro _ e he rfl
    obtain ⟨j, -, hextends⟩ :=
      exists_prefix_of_mem_walkMembers (fun _ _ _ => prefix_of_mem_walkFrom) he
    exact lt_of_extends_self hextends

/-- The paths of a walk grow in the order of dictionaries. -/
theorem pairwise_lt_walk (t : Node) : (t.walk.map Prod.fst).Pairwise (· < ·) :=
  pairwise_lt_walkFrom t []

/-! ### Following integers -/

theorem positionOf?_int (count : Nat) (n : Int) :
    positionOf? count (.int n) = .ok (if 0 ≤ n ∧ n < count then some n.toNat else none) := by
  have hbelow (m : Int) : (Value.int n).lessThanInt m = .ok (decide (n < m)) := rfl
  simp only [positionOf?, hbelow, Result.ok_bind, Value.asInt?]
  by_cases hneg : n < 0
  · simp [hneg, Int.not_le.mpr hneg]
    rfl
  · by_cases hcount : n < count
    · simp [hneg, hcount, Int.not_lt.mp hneg]
      rfl
    · simp [hneg, hcount]
      rfl

/-- An integer leads to the member at its position, if there is one. -/
theorem findAt_int_cons (t : Node) (n : Int) (vs : List Value) :
    t.findAt (.int n :: vs) =
      ((if 0 ≤ n then t.members[n.toNat]? else none).elim (.ok none) fun m => m.findAt vs) := by
  rw [findAt, positionOf?_int, Result.ok_bind]
  by_cases hgroup : t.isGroup = true
  · rw [if_pos hgroup]
    by_cases hn : 0 ≤ n ∧ n < t.members.length
    · have hlt : n.toNat < t.members.length := by omega
      have hm : t.members[n.toNat]? = some t.members[n.toNat] := List.getElem?_eq_getElem hlt
      rw [if_pos hn, if_pos hn.1, Option.bind_some, hm]
      rfl
    · have hnone : (if 0 ≤ n then t.members[n.toNat]? else none) = none := by
        split
        · exact List.getElem?_eq_none (by omega)
        · rfl
      rw [if_neg hn, hnone]
      rfl
  · have hnil : t.members = [] := by
      cases t with
      | rule | bare => rfl
      | group | interleaved => exact absurd rfl hgroup
    simp [hgroup, hnil]

/-- A path is followed to the node that is held by it. -/
theorem Holds.findAt (h : t.Holds path node) :
    t.findAt ((path.map Int.ofNat).map .int) = .ok (some node) := by
  induction h with
  | here t => rfl
  | member hm _ _ ih =>
    rw [List.map_cons, List.map_cons, findAt_int_cons, Int.ofNat_eq_natCast,
      if_pos (Int.natCast_nonneg _), Int.toNat_natCast, hm]
    exact ih

/-- Nothing but itself is held by a combinator. -/
theorem Holds.isCombinator_eq (h : t.Holds path node) (hnode : node.isCombinator = false) :
    t.isCombinator = false := by
  cases h with
  | here => exact hnode
  | member hm =>
    cases t with
    | group | interleaved => rfl
    | rule | bare => cases hm

/-- Integers are followed to a combinator, to a node that is held by them, or to nothing. -/
theorem exists_findAt_eq_ok (t : Node) (positions : List Int) :
    ∃ found, t.findAt (positions.map .int) = .ok found ∧
      ∀ node, found = some node → node.isCombinator = false →
        ∃ path : Path, positions = path.map Int.ofNat ∧ t.Holds path node := by
  induction positions generalizing t with
  | nil =>
    refine ⟨some t, rfl, ?_⟩
    rintro _ ⟨⟩ -
    exact ⟨[], rfl, .here t⟩
  | cons n positions ih =>
    rw [List.map_cons, findAt_int_cons]
    cases hfound : (if 0 ≤ n then t.members[n.toNat]? else none) with
    | none => exact ⟨none, rfl, by simp⟩
    | some m =>
      obtain ⟨hn, hm⟩ : 0 ≤ n ∧ t.members[n.toNat]? = some m := by simpa using hfound
      obtain ⟨found, hfind, hheld⟩ := ih m
      refine ⟨found, hfind, fun node hnode hmember => ?_⟩
      obtain ⟨path, rfl, hpath⟩ := hheld node hnode hmember
      refine ⟨n.toNat :: path, ?_, .member hm (hpath.isCombinator_eq hmember) hpath⟩
      rw [List.map_cons, Int.ofNat_eq_natCast, Int.toNat_of_nonneg hn]

/-- **Walking and following agree.**  The walk lists what a tree holds, in the strict order
of the paths and no node before one above it; its paths are followed to their nodes; and
integers that are followed to a node are a path of the walk. -/
theorem walk_findAt (t : Node) :
    (∀ path node, (path, node) ∈ t.walk ↔ t.Holds path node) ∧
    (t.walk.map Prod.fst).Pairwise (· < ·) ∧ (t.walk.map Prod.fst).Nodup ∧
    (t.walk.map Prod.fst).Pairwise (fun path later => ¬later <+: path) ∧
    (∀ e ∈ t.walk, t.findAt ((e.1.map Int.ofNat).map .int) = .ok (some e.2)) ∧
    ∀ positions : List Int, ∃ found, t.findAt (positions.map .int) = .ok found ∧
      ∀ node, found = some node → node.isCombinator = false →
        ∃ path : Path, positions = path.map Int.ofNat ∧ (path, node) ∈ t.walk := by
  have hsorted := pairwise_lt_walk t
  refine ⟨fun _ _ => mem_walk_iff, hsorted, hsorted.imp ?_, hsorted.imp not_prefix_of_lt,
    fun e he => (mem_walk_iff.mp he).findAt, fun positions => ?_⟩
  · rintro p _ hlt rfl
    exact List.lt_irrefl p hlt
  · simpa only [mem_walk_iff] using exists_findAt_eq_ok t positions

end
end Node
end RuleTree
