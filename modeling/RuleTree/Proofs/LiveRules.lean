import RuleTree.Node.Path
import RuleTree.Proofs.StandardForm
import RuleTree.Writing

/-! # Live rules

The rules of a tree that are written: those that are neither disabled nor below a
disabled group.  `Node.liveRules` takes them off the walk of the tree, with their
paths and in that order, and `Node.liveFrom` finds them from the root down; for a
standard tree both are the same (`Node.liveRules_eq`).

A writer that joins whatever its rules give it does to the bindings what writing the
live rules one after another does, and fails where that does (`Writer.Joins.tracks`).
-/
namespace RuleTree
namespace Node

/-! ### Live rules of a walk -/

/-- Whether a disabled node of a walk is on the way to a path, at its end included. -/
def isBlocked (walk : List (Path × Node)) (path : Path) : Bool :=
  walk.any fun e => e.1.isPrefixOf path && e.2.isDisabled

/-- The rule of an entry of a walk, unless the rule or a group that it is in is
disabled. -/
def liveIn (walk : List (Path × Node)) : Path × Node → Option (Path × Rule)
  | (path, .rule r) =>
    if isBlocked walk path then none else some (path, r)
  | _ => none

/-- The live rules of a tree with their paths, in the order of its walk. -/
def liveRules (t : Node) : List (Path × Rule) := t.walk.filterMap (liveIn t.walk)

mutual
/-- The live rules of a node of a standard tree, given its path. -/
def liveFrom (path : Path) : Node → List (Path × Rule)
  | .rule r => if r.disabled then [] else [(path, r)]
  | .group _ flags children => if flags.disabled then [] else liveMembers path 0 children
  | _ => []

/-- The live rules of the members of a group from the given position on. -/
def liveMembers (path : Path) : Nat → List Node → List (Path × Rule)
  | _, [] => []
  | position, node :: rest =>
    liveFrom (path ++ [position]) node ++ liveMembers path (position + 1) rest
end

/-! ### Both are the same -/

section
variable {path q : Path}

/-- A path leads below one member only. -/
theorem eq_of_append_prefix {i j : Nat} (hi : path ++ [i] <+: q) (hj : path ++ [j] <+: q) :
    i = j := by
  have heq : path ++ [i] = path ++ [j] :=
    (List.prefix_of_prefix_length_le hi hj (by simp)).eq_of_length (by simp)
  simpa using heq

/-- Members are walked one by one, combinators are passed over. -/
theorem walkMembers_cons (position : Nat) (node : Node) (rest : List Node) :
    walkMembers path position (node :: rest) =
      (if node.isCombinator then [] else walkFrom (path ++ [position]) node) ++
        walkMembers path (position + 1) rest := by
  cases node with
  | bare v => cases v <;> rw [walkMembers] <;> simp [isCombinator]
  | rule _ | group _ _ _ | interleaved _ _ => rw [walkMembers] <;> simp [isCombinator]

theorem IsStandard.isCombinator_eq {node : Node} (h : node.IsStandard) :
    node.isCombinator = false := by
  cases h <;> rfl

/-- What is gathered from members one by one, combinators passed over, is gathered from one
of them. -/
theorem mem_gathered_iff {β : Type} {gather : Nat → List Node → List β}
    {single : Path → Node → List β} (hnil : ∀ position, gather position [] = [])
    (hcons : ∀ position node rest, gather position (node :: rest) =
      (if node.isCombinator then [] else single (path ++ [position]) node) ++
        gather (position + 1) rest) {nodes : List Node} {e : β} {position : Nat} :
    e ∈ gather position nodes ↔ ∃ i node, nodes[i]? = some node ∧
      node.isCombinator = false ∧ e ∈ single (path ++ [position + i]) node := by
  induction nodes generalizing position with
  | nil => simp [hnil]
  | cons first nodes ih =>
    rw [hcons, List.mem_append, ih]
    constructor
    · rintro (he | ⟨i, node, hnode, hmember, he⟩)
      · split at he
        · cases he
        · rename_i hmember
          exact ⟨0, first, rfl, by simpa using hmember, he⟩
      · exact ⟨i + 1, node, hnode, hmember, by rwa [Nat.add_comm i, ← Nat.add_assoc]⟩
    · rintro ⟨i, node, hnode, hmember, he⟩
      cases i with
      | zero =>
        obtain rfl := Option.some.inj hnode
        exact .inl (by rwa [hmember])
      | succ i => exact .inr ⟨i, node, hnode, hmember, by rwa [Nat.add_assoc, Nat.add_comm 1]⟩

/-- What is walked among members is walked from one of them on. -/
theorem mem_walkMembers_iff {nodes : List Node} {e : Path × Node} {position : Nat} :
    e ∈ walkMembers path position nodes ↔ ∃ i node, nodes[i]? = some node ∧
      node.isCombinator = false ∧ e ∈ walkFrom (path ++ [position + i]) node :=
  mem_gathered_iff (fun _ => by rw [walkMembers]) walkMembers_cons

/-- A node is walked itself, then its members. -/
theorem walkFrom_eq (path : Path) (t : Node) :
    walkFrom path t = (path, t) :: walkMembers path 0 t.members := by
  cases t with
  | group | interleaved => rw [walkFrom]; rfl
  | rule | bare => rw [walkFrom] <;> simp [members, walkMembers]

/-- Induction on trees by the members of a node. -/
theorem induct_members {P : Node → Prop} (step : ∀ t : Node, (∀ m ∈ t.members, P m) → P t)
    (t : Node) : P t := by
  induction t using induct with
  | rule _ | bare _ => exact step _ (by simp [members])
  | group _ _ _ ih | interleaved _ _ ih => exact step _ ih

/-- What is walked among members has a path by way of one of them. -/
theorem exists_prefix_of_mem_walkMembers {nodes : List Node} {e : Path × Node} {position : Nat}
    (ih : ∀ node ∈ nodes, ∀ path, e ∈ walkFrom path node → path <+: e.1)
    (he : e ∈ walkMembers path position nodes) : ∃ j, position ≤ j ∧ path ++ [j] <+: e.1 := by
  obtain ⟨i, node, hnode, -, he⟩ := mem_walkMembers_iff.mp he
  exact ⟨position + i, Nat.le_add_right _ _, ih node (List.mem_of_getElem? hnode) _ he⟩

/-- What is walked from a node on has a path that goes on from the node's. -/
theorem prefix_of_mem_walkFrom {t : Node} {e : Path × Node} (he : e ∈ t.walkFrom path) :
    path <+: e.1 := by
  induction t using induct_members generalizing path with
  | step t ih =>
    rw [walkFrom_eq] at he
    rcases List.mem_cons.mp he with rfl | he
    · exact List.prefix_rfl
    · obtain ⟨j, -, hprefix⟩ :=
        exists_prefix_of_mem_walkMembers (fun node hnode _ he => ih node hnode he) he
      exact (List.prefix_append path [j]).trans hprefix

/-- The rules that are walked are the rules of the tree. -/
theorem mem_rules_of_mem_walkFrom {t : Node} {r : Rule} (h : (q, .rule r) ∈ t.walkFrom path) :
    r ∈ t.rules := by
  have hmembers (path : Path) (members : List Node)
      (ih : ∀ node ∈ members, ∀ path, (q, .rule r) ∈ walkFrom path node → r ∈ node.rules)
      (h : (q, .rule r) ∈ walkMembers path 0 members) : r ∈ members.flatMap rules := by
    obtain ⟨i, node, hnode, -, h⟩ := mem_walkMembers_iff.mp h
    exact List.mem_flatMap.mpr ⟨node, List.mem_of_getElem? hnode,
      ih node (List.mem_of_getElem? hnode) _ h⟩
  induction t using induct generalizing path with
  | rule _ =>
    rw [walkFrom] at h
    · obtain ⟨-, rfl⟩ : q = path ∧ r = _ := by simpa using h
      simp
    all_goals simp
  | bare _ =>
    rw [walkFrom] at h
    · simp at h
    all_goals simp
  | group _ _ _ ih =>
    rw [walkFrom] at h
    rw [rules_group]
    exact hmembers path _ (fun node hnode path h => ih node hnode h) (by simpa using h)
  | interleaved _ _ ih =>
    rw [walkFrom] at h
    rw [rules_interleaved]
    exact hmembers path _ (fun node hnode path h => ih node hnode h) (by simpa using h)

theorem isBlocked_append (walk walk' : List (Path × Node)) (path : Path) :
    isBlocked (walk ++ walk') path = (isBlocked walk path || isBlocked walk' path) :=
  List.any_append

/-- What is walked elsewhere is not on the way. -/
theorem isBlocked_eq_false {walk : List (Path × Node)} (h : ∀ e ∈ walk, ¬e.1 <+: path) :
    isBlocked walk path = false := by
  rw [isBlocked, List.any_eq_false]
  intro e he hblocked
  exact h e he (List.isPrefixOf_iff_prefix.mp (Bool.and_eq_true_iff.mp hblocked).1)

/-- A walk finds the live rules of members that it finds alone. -/
theorem filterMap_walkMembers {walk : List (Path × Node)} {nodes : List Node} {position : Nat}
    (hnodes : ∀ node ∈ nodes, node.IsStandard)
    (ih : ∀ node ∈ nodes, ∀ path, (∀ q, path <+: q →
      isBlocked walk q = isBlocked (walkFrom path node) q) →
        (walkFrom path node).filterMap (liveIn walk) = liveFrom path node)
    (hwalk : ∀ j q, position ≤ j → path ++ [j] <+: q →
      isBlocked walk q = isBlocked (walkMembers path position nodes) q) :
    (walkMembers path position nodes).filterMap (liveIn walk) =
      liveMembers path position nodes := by
  induction nodes generalizing position with
  | nil =>
    rw [walkMembers, liveMembers]
    rfl
  | cons node nodes ihn =>
    obtain ⟨hnode, hrest⟩ := List.forall_mem_cons.mp hnodes
    obtain ⟨ihnode, ihrest⟩ := List.forall_mem_cons.mp ih
    have hwalked : walkMembers path position (node :: nodes) =
        walkFrom (path ++ [position]) node ++ walkMembers path (position + 1) nodes := by
      rw [walkMembers_cons, hnode.isCombinator_eq]
      rfl
    simp only [hwalked, isBlocked_append] at hwalk
    have hhere : ∀ q, path ++ [position] <+: q →
        isBlocked walk q = isBlocked (walkFrom (path ++ [position]) node) q := by
      intro q hq
      -- the members after the first one are not on its way
      have helse : isBlocked (walkMembers path (position + 1) nodes) q = false := by
        refine isBlocked_eq_false fun e he hprefix => ?_
        obtain ⟨j, hj, hmember⟩ :=
          exists_prefix_of_mem_walkMembers (fun _ _ _ => prefix_of_mem_walkFrom) he
        have := eq_of_append_prefix hq (hmember.trans hprefix)
        omega
      rw [hwalk position q (Nat.le_refl _) hq, helse, Bool.or_false]
    have hthere : ∀ j q, position + 1 ≤ j → path ++ [j] <+: q →
        isBlocked walk q = isBlocked (walkMembers path (position + 1) nodes) q := by
      intro j q hj hq
      have helse : isBlocked (walkFrom (path ++ [position]) node) q = false := by
        refine isBlocked_eq_false fun e he hprefix => ?_
        have := eq_of_append_prefix hq ((prefix_of_mem_walkFrom he).trans hprefix)
        omega
      rw [hwalk j q (by omega) hq, helse, Bool.false_or]
    rw [hwalked, List.filterMap_append, liveMembers, ihnode _ hhere,
      ihn hrest ihrest hthere]

/-- A walk finds the live rules of a node that it finds alone. -/
theorem filterMap_walkFrom {t : Node} (ht : t.IsStandard) {walk : List (Path × Node)}
    (hwalk : ∀ q, path <+: q → isBlocked walk q = isBlocked (t.walkFrom path) q) :
    (t.walkFrom path).filterMap (liveIn walk) = t.liveFrom path := by
  induction ht generalizing path with
  | rule r =>
    have hrule : walkFrom path (.rule r) = [(path, .rule r)] := by rw [walkFrom] <;> simp
    have hblocked : isBlocked walk path = r.disabled := by
      rw [hwalk path List.prefix_rfl, hrule]
      simp [isBlocked, isDisabled]
    rw [hrule, liveFrom]
    cases hdisabled : r.disabled <;> simp [liveIn, hblocked, hdisabled]
  | @group combinator flags children hchildren ih =>
    rw [walkFrom] at hwalk ⊢
    rw [liveFrom]
    cases hdisabled : flags.disabled with
    | true =>
      have hnone : ∀ e ∈ (path, Node.group combinator flags children) ::
          walkMembers path 0 children, liveIn walk e = none := by
        intro e he
        have hprefix : path <+: e.1 := by
          have hgroup : e ∈ walkFrom path (.group combinator flags children) := by rwa [walkFrom]
          exact prefix_of_mem_walkFrom hgroup
        have hblocked : isBlocked walk e.1 = true := by
          rw [hwalk e.1 hprefix, isBlocked, List.any_cons]
          simp [isDisabled, hdisabled, hprefix]
        obtain ⟨q, node⟩ := e
        cases node <;> simp [liveIn, hblocked]
      rw [List.filterMap_eq_nil_iff.mpr hnone]
      rfl
    | false =>
      have hskip : ∀ q, isBlocked ((path, Node.group combinator flags children) ::
          walkMembers path 0 children) q = isBlocked (walkMembers path 0 children) q := by
        intro q
        simp [isBlocked, isDisabled, hdisabled]
      have hmembers : (walkMembers path 0 children).filterMap (liveIn walk) =
          liveMembers path 0 children :=
        filterMap_walkMembers hchildren (fun child hchild path => ih child hchild)
          fun j q _ hq => by
          rw [hwalk q ((List.prefix_append path [j]).trans hq), hskip]
      rw [List.filterMap_cons, hmembers]
      rfl

/-- The live rules of a tree are among its rules. -/
theorem mem_rules_of_mem_liveFrom {t : Node} (ht : t.IsStandard) {e : Path × Rule}
    (he : e ∈ t.liveFrom path) : e.2 ∈ t.rules := by
  have hfound : (t.walkFrom path).filterMap (liveIn (t.walkFrom path)) = t.liveFrom path :=
    filterMap_walkFrom ht fun _ _ => rfl
  rw [← hfound] at he
  obtain ⟨⟨q, node⟩, hwalked, hlive⟩ := List.mem_filterMap.mp he
  cases node with
  | rule r =>
    rw [liveIn] at hlive
    split at hlive
    · cases hlive
    · obtain rfl := Option.some.inj hlive
      exact mem_rules_of_mem_walkFrom hwalked
  | _ => cases hlive

/-- The live rules of a standard tree are found from its root down. -/
theorem liveRules_eq {t : Node} (ht : t.IsStandard) : t.liveRules = t.liveFrom [] :=
  filterMap_walkFrom ht fun _ _ => rfl

end

/-! ### Combinators -/

mutual
/-- The combinators of the groups of a standard tree. -/
def combinators : Node → List Value
  | .group combinator _ children => combinator :: combinatorsOf children
  | _ => []

/-- The combinators of trees in a row. -/
def combinatorsOf : List Node → List Value
  | [] => []
  | node :: rest => combinators node ++ combinatorsOf rest
end

theorem combinatorsOf_eq_flatMap (nodes : List Node) :
    combinatorsOf nodes = nodes.flatMap combinators := by
  induction nodes with
  | nil => rfl
  | cons node nodes ih => rw [combinatorsOf, ih, List.flatMap_cons]

theorem combinators_group (combinator : Value) (flags : GroupFlags) (children : List Node) :
    combinators (.group combinator flags children) =
      combinator :: children.flatMap combinators := by
  rw [combinators, combinatorsOf_eq_flatMap]

end Node

/-! ### Writing live rules one after another -/

namespace Writer
variable {α A B : Type}

/-- Steps that are alike go on alike if what follows does. -/
theorem bind_apply_congr {x y : Write A} {f g : A → Write B} {s : Bindings} (h : x s = y s)
    (hnext : ∀ a s', x s = .ok (a, s') → f a s' = g a s') : (x >>= f) s = (y >>= g) s := by
  show (x s >>= fun p => f p.1 p.2) = y s >>= fun p => g p.1 p.2
  rw [← h]
  exact Result.bind_congr fun p hp => hnext p.1 p.2 hp

/-- What writing rules one after another does to the bindings. -/
def writeRules (w : Writer α) (plan : FormatPlan) (rules : List (Path × Rule)) (s : Bindings) :
    Result Bindings :=
  rules.foldlM (fun s e => (w.writeRule plan e.1 e.2 s).map Prod.snd) s

theorem writeRules_append (w : Writer α) (plan : FormatPlan) (rules rules' : List (Path × Rule))
    (s : Bindings) :
    w.writeRules plan (rules ++ rules') s =
      w.writeRules plan rules s >>= w.writeRules plan rules' :=
  List.foldlM_append

/-- A writer that joins whatever its rules give it: there is a class of outputs to
which those of rules belong, and whose rows it joins to others, under combinators of
some kind. -/
structure Joins (w : Writer α) (plan : FormatPlan) (Good : α → Prop) (Known : Value → Prop)
    (P : Rule → Prop) : Prop where
  rule {r : Rule} {path : Path} {s s' : Bindings} {out : α} : P r →
    w.writeRule plan path r s = .ok (out, s') → Good out
  combine {outs : List α} {combinator : Value} : (∀ out ∈ outs, Good out) → outs ≠ [] →
    Known combinator → ∀ negated isRoot,
      ∃ out, w.combine combinator negated isRoot outs = .ok out ∧ Good out

/-- A step of writing gives an output and does to the bindings what another does, or
fails as that does. -/
inductive Tracks (Q : A → Prop) : Result (A × Bindings) → Result Bindings → Prop where
  | error (e : Error) : Tracks Q (.error e) (.error e)
  | ok {a : A} (s : Bindings) : Q a → Tracks Q (.ok (a, s)) (.ok s)

theorem Tracks.bind {Q : A → Prop} {Q' : B → Prop} {x : Result (A × Bindings)}
    {y : Result Bindings} {f : A × Bindings → Result (B × Bindings)}
    {g : Bindings → Result Bindings}
    (h : Tracks Q x y) (hnext : ∀ a s, Q a → Tracks Q' (f (a, s)) (g s)) :
    Tracks Q' (x >>= f) (y >>= g) := by
  cases h with
  | error e => exact .error e
  | ok s ha => exact hnext _ s ha

/-- What leaves the bindings alone may follow. -/
theorem Tracks.andThen {Q : A → Prop} {Q' : B → Prop} {x : Result (A × Bindings)}
    {y : Result Bindings} {f : A × Bindings → Result (B × Bindings)} (h : Tracks Q x y)
    (hnext : ∀ a s, Q a → Tracks Q' (f (a, s)) (.ok s)) : Tracks Q' (x >>= f) y := by
  cases h with
  | error e => exact .error e
  | ok s ha => exact hnext _ s ha

namespace Joins
variable {w : Writer α} {plan : FormatPlan} {Good : α → Prop} {Known : Value → Prop}
  {P : Rule → Prop} (h : w.Joins plan Good Known P)
include h

omit h in
/-- An output is in the class if it is not left out. -/
theorem forall_mem_keep {out : α} (hgood : Good out) :
    ∀ out' ∈ (if w.isEmpty out then none else some out), Good out' := by
  split
  · simp
  · simpa using hgood

omit h in
/-- Members that track their live rules do so in a row. -/
theorem tracks_writeMembers {path : Path} {nodes : List Node}
    (ih : ∀ node ∈ nodes, ∀ path s, Tracks (fun output => ∀ out ∈ output, Good out)
      (w.writeNode plan none path node s) (w.writeRules plan (node.liveFrom path) s))
    (position : Nat) (s : Bindings) : Tracks (fun outs => ∀ out ∈ outs, Good out)
      (w.writeMembers plan none path position nodes s)
      (w.writeRules plan (Node.liveMembers path position nodes) s) := by
  induction nodes generalizing position s with
  | nil =>
    rw [Writer.writeMembers, Node.liveMembers]
    exact .ok s (by simp)
  | cons node nodes ihn =>
    obtain ⟨hnode, hrest⟩ := List.forall_mem_cons.mp ih
    rw [Writer.writeMembers, Node.liveMembers, writeRules_append]
    refine (hnode _ s).bind fun output s' hgood => ?_
    refine (ihn hrest (position + 1) s').andThen fun outs s'' hgood' => .ok s'' fun out hout => ?_
    rcases List.mem_append.mp hout with hout | hout
    · exact hgood out (by simpa using hout)
    · exact hgood' out hout

/-- **Live rules.**  Writing a standard tree does to the bindings what writing its live
rules one after another does. -/
theorem tracks {t : Node} (ht : t.IsStandard) (hrules : ∀ r ∈ t.rules, P r)
    (hknown : ∀ combinator ∈ t.combinators, Known combinator) (path : Path) (s : Bindings) :
    Tracks (fun output => ∀ out ∈ output, Good out) (w.writeNode plan none path t s)
      (w.writeRules plan (t.liveFrom path) s) := by
  induction ht generalizing path s with
  | rule r =>
    unfold Writer.writeNode
    rw [Node.liveFrom]
    cases hdisabled : r.disabled with
    | true => exact .ok s (by simp)
    | false =>
      have hrule : Tracks Good (w.writeRule plan path r s)
          (w.writeRules plan [(path, r)] s) := by
        simp only [writeRules, List.foldlM_cons, List.foldlM_nil]
        cases hwrite : w.writeRule plan path r s with
        | error e => exact .error e
        | ok output => exact .ok output.2 (h.rule (hrules r (by simp)) hwrite)
      simp only [Judgement.passes, Bool.not_true, Bool.or_self, Bool.false_eq_true, if_false]
      refine hrule.andThen fun out s' hgood => .ok s' ?_
      exact forall_mem_keep hgood
  | @group combinator flags children hchildren ih =>
    rw [Node.rules_group] at hrules
    rw [Node.combinators_group] at hknown
    obtain ⟨hhere, hbelow⟩ := List.forall_mem_cons.mp hknown
    have hmembers : Tracks (fun outs => ∀ out ∈ outs, Good out)
        (w.writeMembers plan none path 0 children s)
        (w.writeRules plan (Node.liveMembers path 0 children) s) :=
      tracks_writeMembers (fun child hchild path s => ih child hchild
        (fun r hr => hrules r (List.mem_flatMap.mpr ⟨child, hchild, hr⟩))
        (fun c hc => hbelow c (List.mem_flatMap.mpr ⟨child, hchild, hc⟩)) path s) 0 s
    unfold Writer.writeNode
    rw [Node.liveFrom]
    cases hdisabled : flags.disabled with
    | true => exact .ok s (by simp)
    | false =>
      simp only [Judgement.passes, Bool.not_true, Bool.or_self, Bool.false_eq_true, if_false]
      refine hmembers.andThen fun outs s' hgood => ?_
      cases outs with
      | nil => exact .ok s' (by simp)
      | cons first rest =>
        obtain ⟨out, hcombine, hout⟩ :=
          h.combine hgood (List.cons_ne_nil _ _) hhere flags.negated path.isEmpty
        simp only [hcombine]
        exact .ok s' (forall_mem_keep hout)

end Joins

/-- Two plans under which the rules of a row are written alike, each after the rules
before it. -/
def Alike (w : Writer α) (plan plan' : FormatPlan) (rules : List (Path × Rule)) (s : Bindings) :
    Prop :=
  ∀ before e after s', rules = before ++ e :: after → w.writeRules plan before s = .ok s' →
    w.writeRule plan e.1 e.2 s' = w.writeRule plan' e.1 e.2 s'

section
variable {w : Writer α} {plan plan' : FormatPlan} {rules rules' : List (Path × Rule)}
  {s s' : Bindings}

theorem Alike.left (h : w.Alike plan plan' (rules ++ rules') s) : w.Alike plan plan' rules s := by
  rintro before e after s' rfl hbefore
  exact h before e (after ++ rules') s' (by simp) hbefore

theorem Alike.right (h : w.Alike plan plan' (rules ++ rules') s)
    (hrules : w.writeRules plan rules s = .ok s') : w.Alike plan plan' rules' s' := by
  rintro before e after s'' rfl hbefore
  refine h (rules ++ before) e after s'' (by simp) ?_
  rw [writeRules_append, hrules]
  exact hbefore

/-- What is tracked ends where the rules do. -/
theorem Tracks.writeRules_eq {Q : A → Prop} {x : Result (A × Bindings)} {y : Result Bindings}
    (h : Tracks Q x y) {a : A} (hx : x = .ok (a, s)) : y = .ok s := by
  subst hx
  cases h
  rfl

/-- Members are written alike in a row if their live rules are. -/
theorem Joins.writeMembers_eq {Good : α → Prop} {Known : Value → Prop} {P : Rule → Prop}
    (h : w.Joins plan Good Known P) {nodes : List Node} (hnodes : ∀ node ∈ nodes, node.IsStandard)
    (hrules : ∀ node ∈ nodes, ∀ r ∈ node.rules, P r)
    (hknown : ∀ node ∈ nodes, ∀ combinator ∈ node.combinators, Known combinator)
    (ih : ∀ node ∈ nodes, ∀ path s, w.Alike plan plan' (node.liveFrom path) s →
      w.writeNode plan none path node s = w.writeNode plan' none path node s)
    {path : Path} {position : Nat} {s : Bindings}
    (halike : w.Alike plan plan' (Node.liveMembers path position nodes) s) :
    w.writeMembers plan none path position nodes s =
      w.writeMembers plan' none path position nodes s := by
  induction nodes generalizing position s with
  | nil => rw [writeMembers, writeMembers]
  | cons node nodes ihn =>
    obtain ⟨hnode, hrest⟩ := List.forall_mem_cons.mp hnodes
    obtain ⟨hrule, hrules⟩ := List.forall_mem_cons.mp hrules
    obtain ⟨hhere, hknown⟩ := List.forall_mem_cons.mp hknown
    obtain ⟨ihnode, ihrest⟩ := List.forall_mem_cons.mp ih
    rw [Node.liveMembers] at halike
    rw [writeMembers, writeMembers]
    refine bind_apply_congr (ihnode _ _ halike.left) fun output s' houtput => ?_
    -- the members behind the first one start where its live rules end
    have hend := (h.tracks hnode hrule hhere (path ++ [position]) s).writeRules_eq houtput
    exact bind_apply_congr (ihn hrest hrules hknown ihrest (halike.right hend)) fun _ _ _ => rfl

theorem Tracks.eq_error {Q : A → Prop} {x : Result (A × Bindings)} {e : Error}
    (h : Tracks Q x (.error e)) : x = .error e := by
  cases h
  rfl

/-- A tree is written alike under two plans if its live rules are. -/
theorem Joins.writeNode_eq {Good : α → Prop} {Known : Value → Prop} {P : Rule → Prop}
    (h : w.Joins plan Good Known P) {t : Node} (ht : t.IsStandard) (hrules : ∀ r ∈ t.rules, P r)
    (hknown : ∀ combinator ∈ t.combinators, Known combinator) {path : Path} {s : Bindings}
    (halike : w.Alike plan plan' (t.liveFrom path) s) :
    w.writeNode plan none path t s = w.writeNode plan' none path t s := by
  induction ht generalizing path s with
  | rule r =>
    unfold writeNode
    cases hdisabled : r.disabled with
    | true => rfl
    | false =>
      rw [Node.liveFrom, hdisabled] at halike
      have hrule : w.writeRule plan path r s = w.writeRule plan' path r s :=
        halike [] (path, r) [] s rfl rfl
      simp only [Judgement.passes, Bool.not_true, Bool.or_self, Bool.false_eq_true, if_false]
      exact bind_apply_congr hrule fun _ _ _ => rfl
  | @group combinator flags children hchildren ih =>
    rw [Node.rules_group] at hrules
    rw [Node.combinators_group] at hknown
    have hbelow := (List.forall_mem_cons.mp hknown).2
    unfold writeNode
    cases hdisabled : flags.disabled with
    | true => rfl
    | false =>
      rw [Node.liveFrom, hdisabled] at halike
      have hmembers : w.writeMembers plan none path 0 children s =
          w.writeMembers plan' none path 0 children s :=
        h.writeMembers_eq (fun child hchild => hchildren child hchild)
          (fun child hchild r hr => hrules r (List.mem_flatMap.mpr ⟨child, hchild, hr⟩))
          (fun child hchild c hc => hbelow c (List.mem_flatMap.mpr ⟨child, hchild, hc⟩))
          (fun child hchild path s => ih child hchild
            (fun r hr => hrules r (List.mem_flatMap.mpr ⟨child, hchild, hr⟩))
            (fun c hc => hbelow c (List.mem_flatMap.mpr ⟨child, hchild, hc⟩))) halike
      simp only [Judgement.passes, Bool.not_true, Bool.or_self, Bool.false_eq_true, if_false]
      exact bind_apply_congr hmembers fun _ _ _ => rfl

end
end Writer
end RuleTree
