import Mathlib.Data.List.Forall2
import RuleTree.Clause.Tree
import RuleTree.Proofs.Canonical

/-! # Groups from clauses

A reader that keeps list values joins its clauses to groups, and the groups come
out as the tree that was written.  `Clause.Builds traits c node` says that the
clause `c` becomes `node` as a member of a group at any depth.  A rule does as it
is (`builds_rule`), two comparisons that a range is written as become the range
(`builds_rangePair`), and clauses with one junction between them become the group of
the nodes that they become (`Builds.join`), unless that group is itself such a
pair.  `toTree_join` is the same for the root.
-/
namespace RuleTree

/-- Reading with list values kept as lists, and nothing else changed. -/
def ParsePlan.arrays : ParsePlan := { listsAsArrays := true }

/-! ### Members and combinators in turns -/

namespace Node

/-- The combinator of a junction, as it stands between members. -/
def sign (j : Junction) : Node := .bare (.text j.name)

/-- A rule or an interleaved group. -/
inductive IsMember : Node → Prop where
  | rule (r : Rule) : IsMember (.rule r)
  | interleaved (flags : GroupFlags) (items : List Node) : IsMember (.interleaved flags items)

theorem withBetween_cons (s m : Node) (ms : List Node) :
    withBetween s (m :: ms) = m :: ms.flatMap fun m => [s, m] := by
  induction ms generalizing m with
  | nil => rfl
  | cons next ms ih => rw [withBetween, ih next]; rfl

theorem length_withBetween_cons (s m : Node) (ms : List Node) :
    (withBetween s (m :: ms)).length = 2 * ms.length + 1 := by
  induction ms generalizing m with
  | nil => rfl
  | cons next ms ih =>
    rw [withBetween, List.length_cons, List.length_cons, ih next, List.length_cons]
    omega

theorem turnMembers_withBetween (s : Node) (ms : List Node) :
    turnMembers (withBetween s ms) = ms := by
  cases ms with
  | nil => rfl
  | cons m ms =>
    induction ms generalizing m with
    | nil => rfl
    | cons next ms ih => exact congrArg (m :: ·) (ih next)

theorem turnCombinators_withBetween (s m : Node) (ms : List Node) :
    turnCombinators (withBetween s (m :: ms)) = List.replicate ms.length s := by
  rw [withBetween_cons, turnCombinators, List.tail_cons]
  induction ms with
  | nil => rfl
  | cons next ms ih =>
    cases ms with
    | nil => rfl
    | cons last ms => exact congrArg (s :: ·) ih

theorem checkTurnsFrom_withBetween (name : String) {ms : List Node} (h : ∀ m ∈ ms, IsMember m)
    {position : Nat} (hp : position % 2 = 0) :
    checkTurnsFrom position (withBetween (.bare (.text name)) ms) = .ok () := by
  induction ms generalizing position with
  | nil => rfl
  | cons m ms ih =>
    have hnext : (position + 1 + 1) % 2 = 0 := by omega
    have htail := ih (fun m hm => h m (List.mem_cons_of_mem _ hm)) hnext
    cases ms with
    | nil => cases h m List.mem_cons_self <;> simp [withBetween, checkTurnsFrom, hp]
    | cons next ms =>
      have hodd : (position + 1) % 2 = 1 := by omega
      rw [withBetween]
      cases h m List.mem_cons_self <;>
        simpa [checkTurnsFrom, hp, hodd] using htail

theorem checkTurns_withBetween (name : String) {ms : List Node} (h : ∀ m ∈ ms, IsMember m) :
    checkTurns (withBetween (.bare (.text name)) ms) = .ok () := by
  cases ms with
  | nil => rfl
  | cons m ms =>
    rw [checkTurns, length_withBetween_cons, if_neg (by simp)]
    exact checkTurnsFrom_withBetween name h rfl

theorem combinatorName_sign (j : Junction) : combinatorName (sign j) = j.name := by
  cases j <;> decide

theorem joinLevels_of_isUniform {c : String} {rest : List (String × Node)}
    (h : isUniform c rest = true) (levels : List String) (head next : Node) :
    joinLevels levels head ((c, next) :: rest) =
      ofChildren c (head :: next :: rest.map (·.2)) := by
  cases levels <;> simp [joinLevels, h]

/-- The combinator of a group of so many members that are joined by a name. -/
def joinName (name : String) (count : Nat) : String :=
  if count < 2 then "and" else combinatorName (.bare (.text name))

theorem joinName_sign {j : Junction} {count : Nat} (hj : count < 2 → j = .and) :
    joinName j.name count = j.name := by
  rw [joinName]
  split
  case isTrue hcount => rw [hj hcount]; rfl
  case isFalse => exact combinatorName_sign j

/-- Members with one combinator between them are one group. -/
theorem ofTurns_withBetween (flags : GroupFlags) (name : String) (ms : List Node) :
    ofTurns flags (withBetween (.bare (.text name)) ms) =
      .ok (.group (.text (joinName name ms.length)) flags ms) := by
  match ms with
  | [] => rfl
  | [_] => rfl
  | head :: next :: rest =>
    have hname :
        joinName name (head :: next :: rest).length = combinatorName (.bare (.text name)) :=
      if_neg (by simp)
    rw [ofTurns, turnMembers_withBetween, turnCombinators_withBetween, List.map_replicate, hname]
    generalize combinatorName (.bare (.text name)) = c
    have huniform : isUniform c ((List.replicate rest.length c).zip rest) = true := by
      refine List.all_eq_true.mpr fun entry hentry => ?_
      have hname : entry.1 ∈ List.replicate rest.length c := (List.of_mem_zip hentry).1
      simp [List.eq_of_mem_replicate hname]
    have hmembers : ((List.replicate rest.length c).zip rest).map (·.2) = rest :=
      List.map_snd_zip (by simp)
    simp [List.replicate_succ, joinByPrecedence, joinLevels_of_isUniform huniform, huniform,
      hmembers, ofChildren, withFlags, Except.map]

/-! ### Standard members -/

/-- A member of a group as a standard one. -/
def standardMember : Node → Result Node
  | .group combinator flags children => toStandard (.group combinator flags children)
  | .interleaved flags items => toStandard (.interleaved flags items)
  | node => .ok node

theorem toStandardAll_cons (node : Node) (rest : List Node) :
    toStandardAll (node :: rest) = do
      let node ← standardMember node
      return node :: (← toStandardAll rest) := by
  cases node <;> simp [toStandardAll, standardMember] <;> rfl

theorem toStandardAll_withBetween (name : String) {ms ns : List Node}
    (h : List.Forall₂ (fun m n => standardMember m = .ok n) ms ns) :
    toStandardAll (withBetween (.bare (.text name)) ms) =
      .ok (withBetween (.bare (.text name)) ns) := by
  induction h with
  | nil => simp [withBetween, toStandardAll]
  | cons hm hrest ih =>
    cases hrest with
    | nil => simp [withBetween, toStandardAll_cons, hm, toStandardAll]; rfl
    | cons hnext hrest =>
      rw [withBetween, toStandardAll_cons, hm, toStandardAll_cons, ih]
      rfl

/-- The interleaved group of members is the group of their standard forms. -/
theorem toStandard_withBetween (flags : GroupFlags) (name : String) {ms ns : List Node}
    (hms : ∀ m ∈ ms, IsMember m)
    (h : List.Forall₂ (fun m n => standardMember m = .ok n) ms ns) :
    toStandard (.interleaved flags (withBetween (.bare (.text name)) ms)) =
      .ok (.group (.text (joinName name ns.length)) flags ns) := by
  rw [toStandard, checkTurns_withBetween name hms, toStandardAll_withBetween name h]
  exact ofTurns_withBetween flags name ns

end Node

/-! ### Members -/

theorem Value.withNumbers_never (v : Value) : v.withNumbers .never = v := by
  cases v <;> simp [withNumbers]

theorem Value.map_withNumbers_never (items : List Value) :
    items.map (withNumbers .never) = items :=
  (List.map_congr_left fun v _ => withNumbers_never v).trans (List.map_id items)

namespace Clause
variable {traits : SourceTraits}

/-- Reading with lists changes nothing about a rule. -/
theorem finishRule_arrays (r : Rule) : finishRule .arrays r = r := by
  obtain ⟨field, operator, value, source, disabled, id⟩ := r
  cases value <;> simp [finishRule, ParsePlan.arrays, Value.withNumbers_never]

/-- Whether a clause is a negated group. -/
def isNegation : Clause → Bool
  | .empty negated => negated
  | .group negated _ _ => negated
  | _ => false

/-- The clause becomes the node as a member of a group. -/
structure Builds (traits : SourceTraits) (c : Clause) (node : Node) : Prop where
  /-- It does so at any depth. -/
  member : ∀ depth, ∃ m, toMember traits .arrays depth c = .ok m ∧ m.IsMember ∧
    m.standardMember = .ok node
  /-- Negated groups become negated groups. -/
  negation : c.isNegation = true → Node.IsLoneNegation [node]

theorem builds_rule (r : Rule) : Builds traits (.rule r) (.rule r) where
  member depth := ⟨.rule r, by rw [toMember, finish_none, finishRule_arrays], .rule r, rfl⟩
  negation h := by cases h

/-- A rule becomes nothing else. -/
theorem Builds.eq_rule {r : Rule} {node : Node} (h : Builds traits (.rule r) node) :
    node = .rule r := by
  obtain ⟨m, hm, -, hnode⟩ := h.member 0
  rw [toMember, finish_none, finishRule_arrays] at hm
  obtain rfl := Except.ok.inj hm
  exact (Except.ok.inj hnode).symm

/-- A group that is no range is the sequence of its members. -/
theorem toMember_group {negated : Bool} {head : Clause} {tail : List (Junction × Clause)}
    (h : recovered? traits negated head tail = none) (depth : Nat) :
    toMember traits .arrays depth (.group negated head tail) = do
      let first ← toMember traits .arrays (depth + 1) head
      let turns ← toTurns traits .arrays (depth + 1) tail
      return .interleaved { negated := negated } (first :: turns) := by
  rw [toMember, h]
  rfl

theorem recovered?_nil (negated : Bool) (head : Clause) :
    recovered? traits negated head [] = none := by
  cases negated <;> cases head <;> simp [recovered?, recoverRange?]

/-- A constant becomes no node. -/
theorem toMember_of_isConstant {c : Clause} (h : c.isConstant = true) (depth : Nat) :
    ∃ e, toMember traits .arrays depth c = .error e := by
  fun_induction isConstant c generalizing depth with
  | case1 comparison => exact ⟨_, rfl⟩
  | case2 head ih =>
    obtain ⟨e, he⟩ := ih h (depth + 1)
    exact ⟨e, by rw [toMember_group (recovered?_nil false head), he]; rfl⟩
  | case3 => cases h

theorem Builds.isConstant_eq_false {c : Clause} {node : Node} (h : Builds traits c node) :
    c.isConstant = false := by
  refine Bool.eq_false_iff.mpr fun hconstant => ?_
  obtain ⟨m, hm, -⟩ := h.member 0
  obtain ⟨e, he⟩ : ∃ e, toMember traits .arrays 0 c = .error e :=
    toMember_of_isConstant hconstant 0
  rw [hm] at he
  cases he

/-! ### Groups -/

/-- The turns of clauses with one junction before each of them. -/
theorem toTurns_map (j : Junction) (depth : Nat) {cs : List Clause} {ms : List Node}
    (h : List.Forall₂ (fun c m => toMember traits .arrays depth c = .ok m) cs ms) :
    toTurns traits .arrays depth (cs.map (j, ·)) = .ok (ms.flatMap fun m => [Node.sign j, m]) := by
  induction h with
  | nil => rfl
  | cons hc _ ih =>
    rw [List.map_cons, toTurns, hc, ih]
    rfl

/-- Clauses that become nodes are members that become them together. -/
theorem members_of_builds {cs : List Clause} {ns : List Node}
    (h : List.Forall₂ (Builds traits) cs ns) (depth : Nat) :
    ∃ ms, List.Forall₂ (fun c m => toMember traits .arrays depth c = .ok m) cs ms ∧
      (∀ m ∈ ms, Node.IsMember m) ∧
      List.Forall₂ (fun m n => Node.standardMember m = .ok n) ms ns := by
  induction h with
  | nil => exact ⟨[], .nil, by simp, .nil⟩
  | cons hc _ ih =>
    obtain ⟨m, hm, hmember, hnode⟩ := hc.member depth
    obtain ⟨ms, hms, hmembers, hnodes⟩ := ih
    exact ⟨m :: ms, .cons hm hms, List.forall_mem_cons.mpr ⟨hmember, hmembers⟩,
      .cons hnode hnodes⟩

/-- The sequence of clauses with one junction between them is the group of the
nodes that they become. -/
theorem interleaved_of_builds {j : Junction} {head : Clause} {cs : List Clause}
    {ns : List Node} (h : List.Forall₂ (Builds traits) (head :: cs) ns)
    (hj : ns.length < 2 → j = .and) (flags : GroupFlags) (depth : Nat) :
    ∃ first turns, toMember traits .arrays depth head = .ok first ∧
      toTurns traits .arrays depth (cs.map (j, ·)) = .ok turns ∧
      Node.toStandard (.interleaved flags (first :: turns)) =
        .ok (.group (.text j.name) flags ns) := by
  obtain ⟨ms, hms, hmembers, hnodes⟩ := members_of_builds h depth
  cases hms with
  | cons hfirst hrest =>
    refine ⟨_, _, hfirst, toTurns_map j depth hrest, ?_⟩
    rw [← Node.withBetween_cons, Node.sign,
      Node.toStandard_withBetween flags j.name hmembers hnodes, Node.joinName_sign hj]

/-- Clauses with one junction between them become the group of the nodes that
they become, unless they write a range. -/
theorem Builds.join {j : Junction} {negated : Bool} {head : Clause} {cs : List Clause}
    {ns : List Node} (h : List.Forall₂ (Builds traits) (head :: cs) ns)
    (hj : ns.length < 2 → j = .and)
    (hrange : recovered? traits negated head (cs.map (j, ·)) = none) :
    Builds traits (join j negated (head :: cs))
      (.group (.text j.name) { negated := negated } ns) where
  member depth := by
    obtain ⟨first, turns, hfirst, hturns, hgroup⟩ :=
      interleaved_of_builds h hj { negated := negated } (depth + 1)
    refine ⟨.interleaved { negated := negated } (first :: turns), ?_, .interleaved _ _, hgroup⟩
    rw [Clause.join, toMember_group hrange, hfirst, hturns]
    rfl
  negation hnegated := hnegated

/-! ### Ranges -/

/-- The two comparisons that a range is written as. -/
def rangePair (source : ValueSource) (field : String) (op : Operator) (low high : Value) :
    Clause :=
  if op = .between then
    join .and false [.rule (Rule.ofSource source field .ge low),
      .rule (Rule.ofSource source field .le high)]
  else
    join .or false [.rule (Rule.ofSource source field .lt low),
      .rule (Rule.ofSource source field .gt high)]

/-- The comparisons become the range. -/
theorem builds_rangePair (htraits : traits.rangesAsPairs = true) {source : ValueSource}
    (hsource : source = .value ∨ source = .field) {op : Operator} (hop : op.isRange = true)
    (field : String) (low high : Value) :
    Builds traits (rangePair source field op low high)
      (.rule (Rule.ofSource source field op (.list [low, high]))) where
  member depth := by
    refine ⟨.rule (Rule.ofSource source field op (.list [low, high])), ?_, .rule _, rfl⟩
    have hfields : (Value.text field).equals (.text field) = true := by
      simp [Value.equals, Value.scalarEquals]
    rcases hsource with rfl | rfl <;> cases op <;> cases hop
    all_goals
      simp [rangePair, join, toMember, recovered?, htraits, recoverRange?, finishRule_arrays,
        hfields, ValueSource.equals, Rule.ofSource, Rule.operator?]
  negation h := by cases op <;> cases hop <;> cases h

/-- Two canonical comparisons that are no range are not taken for one. -/
theorem recoverRange?_eq_none {d : Repertoire} {j : Junction} {low high : Rule}
    (hlow : low.Canonical d) (hhigh : high.Canonical d)
    (h : ¬Node.IsRangePair j [.rule low, .rule high]) :
    recoverRange? false (.rule low.withoutId) [(j, .rule high.withoutId)] = none := by
  obtain @⟨s, f, op, v, id, -, hlow⟩ := hlow
  obtain @⟨t, g, op', w, id', -, hhigh⟩ := hhigh
  rw [recoverRange?]
  split
  case isFalse => rfl
  case isTrue hsame =>
    have hfield : f = g := by
      simpa [Rule.withoutId, Rule.ofSource, Value.equals, Value.scalarEquals] using
        (Bool.and_eq_true_iff.mp hsame).1
    -- other sources than these two would compare alike without being equal
    have hsource : s = t := by
      have hs := (Bool.and_eq_true_iff.mp hsame).2
      rcases hlow.source_eq with rfl | rfl <;> rcases hhigh.source_eq with rfl | rfl <;>
        first | rfl | cases hs
    subst hfield hsource
    have hop : (Rule.withoutId { Rule.ofSource s f op v with id := id }).operator? = some op :=
      Operator.ofValue?_toValue op
    have hop' : (Rule.withoutId { Rule.ofSource s f op' w with id := id' }).operator? =
        some op' := Operator.ofValue?_toValue op'
    simp only [hop, hop']
    split
    case h_1 hge hle =>
      obtain rfl := Option.some.inj hge
      obtain rfl := Option.some.inj hle
      exact absurd ⟨rfl, rfl, Or.inl ⟨rfl, rfl, rfl⟩⟩ h
    case h_2 hlt hgt =>
      obtain rfl := Option.some.inj hlt
      obtain rfl := Option.some.inj hgt
      exact absurd ⟨rfl, rfl, Or.inr ⟨rfl, rfl, rfl⟩⟩ h
    case h_3 => rfl

/-- Where canonical nodes are no range, the clauses that become them are not
taken for one. -/
theorem recovered?_eq_none {d : Repertoire} {j : Junction} {negated : Bool} {head : Clause}
    {cs : List Clause} {children : List Node}
    (h : List.Forall₂ (Builds traits) (head :: cs) (children.map Node.withoutIds))
    (hcanonical : ∀ child ∈ children, child.Canonical d false)
    (hrange : traits.rangesAsPairs = true → negated = false → ¬Node.IsRangePair j children) :
    recovered? traits negated head (cs.map (j, ·)) = none := by
  cases hpairs : traits.rangesAsPairs with
  | false => simp [recovered?, hpairs]
  | true =>
    rw [recovered?, hpairs, if_pos rfl]
    unfold recoverRange?
    split
    case h_2 => rfl
    case h_1 low junction high hcs =>
      -- two rules are all there is, so the nodes are two rules as well
      obtain ⟨c, rest, rfl, hc, hrest⟩ := List.map_eq_cons_iff.mp hcs
      obtain rfl := List.map_eq_nil_iff.mp hrest
      obtain ⟨rfl, rfl⟩ := Prod.mk.inj hc
      obtain ⟨first, rest, hfirst, hrest, hchildren⟩ := List.forall₂_cons_left_iff.mp h
      obtain ⟨second, last, hsecond, hlast, rfl⟩ := List.forall₂_cons_left_iff.mp hrest
      obtain rfl := List.forall₂_nil_left_iff.mp hlast
      rw [hfirst.eq_rule, hsecond.eq_rule] at hchildren
      obtain ⟨a, rest, rfl, ha, hrest⟩ := List.map_eq_cons_iff.mp hchildren
      obtain ⟨b, rest, rfl, hb, hnil⟩ := List.map_eq_cons_iff.mp hrest
      obtain rfl := List.map_eq_nil_iff.mp hnil
      obtain ⟨r, rfl, rfl⟩ := Node.eq_rule_of_withoutIds ha
      obtain ⟨s, rfl, rfl⟩ := Node.eq_rule_of_withoutIds hb
      have hnone := recoverRange?_eq_none (hcanonical _ (by simp)).of_rule
        (hcanonical _ (by simp)).of_rule (hrange hpairs rfl)
      rwa [recoverRange?] at hnone

/-! ### Roots -/

/-- Clauses with one junction between them are the root of their nodes. -/
theorem toTree_join {c : Clause} {j : Junction} {negated : Bool} {head : Clause}
    {cs : List Clause} {ns : List Node} (hconstant : c.isConstant = false)
    (hroot : unwrapRoot traits c = join j negated (head :: cs))
    (h : List.Forall₂ (Builds traits) (head :: cs) ns) (hj : ns.length < 2 → j = .and) :
    toTree traits .arrays (some c) = .ok (.group (.text j.name) { negated := negated } ns) := by
  obtain ⟨first, turns, hfirst, hturns, hgroup⟩ :=
    interleaved_of_builds h hj { negated := negated } 1
  have htree : toGroup traits .arrays (join j negated (head :: cs)) =
      .ok (.interleaved { negated := negated } (first :: turns)) := by
    rw [join, toGroup, hfirst, hturns]
    rfl
  simp only [toTree, hconstant, Bool.false_eq_true, if_false, hroot, htree]
  exact congrArg (· >>= _) hgroup

theorem toTree_empty :
    toTree traits .arrays (some (.empty false)) = .ok (.group (.text "and") {} []) := rfl

/-- A constant alone is an empty query. -/
theorem toTree_of_isConstant {c : Clause} (h : c.isConstant = true) :
    toTree traits .arrays (some c) = .ok (.group (.text "and") {} []) := by
  simp only [toTree, h, if_true]
  rfl

theorem isConstant_parentheses (j : Junction) (c : Clause) :
    (join j false [c]).isConstant = c.isConstant := rfl

/-- The group of clauses is no constant if they become nodes. -/
theorem isConstant_join {j : Junction} {negated : Bool} {head : Clause} {cs : List Clause}
    {ns : List Node} (h : List.Forall₂ (Builds traits) (head :: cs) ns) :
    (join j negated (head :: cs)).isConstant = false := by
  obtain ⟨n, ns, hhead, -, rfl⟩ := List.forall₂_cons_left_iff.mp h
  cases cs with
  | nil => cases negated <;> simp [join, isConstant, hhead.isConstant_eq_false]
  | cons => cases negated <;> simp [join, isConstant]

/-- The parentheses of the whole are dropped where they are those of the root or
negated. -/
theorem unwrapRoot_parentheses {j : Junction} {negated : Bool} {head : Clause}
    {cs : List Clause} (h : (negated || traits.rootInParentheses) = true) :
    unwrapRoot traits (.group false (join j negated (head :: cs)) []) =
      join j negated (head :: cs) := by
  rw [join, unwrapRoot, if_pos h]

/-- Without parentheses of its own the root is as it stands, unless it is a
single negated group. -/
theorem unwrapRoot_join {j : Junction} {head : Clause} {cs : List Clause} {ns : List Node}
    (htraits : traits.rootInParentheses = false)
    (h : List.Forall₂ (Builds traits) (head :: cs) ns) (hlone : ¬Node.IsLoneNegation ns) :
    unwrapRoot traits (join j false (head :: cs)) = join j false (head :: cs) := by
  obtain ⟨n, ns, hhead, htail, rfl⟩ := List.forall₂_cons_left_iff.mp h
  rw [join]
  unfold unwrapRoot
  split
  -- a group that is all there is stays as it is, unless it is negated
  case h_1 negated inner tail heq =>
    obtain ⟨-, rfl, hcs⟩ := Clause.group.inj heq
    obtain rfl := List.map_eq_nil_iff.mp hcs
    cases htail
    cases negated with
    | false => rw [htraits, if_neg (by simp)]; rfl
    | true => exact absurd (hhead.negation rfl) hlone
  case h_2 negated heq =>
    obtain ⟨-, rfl, hcs⟩ := Clause.group.inj heq
    obtain rfl := List.map_eq_nil_iff.mp hcs
    cases htail
    cases negated with
    | false => rw [htraits, if_neg (by simp)]; rfl
    | true => exact absurd (hhead.negation rfl) hlone
  case h_3 heq => cases heq
  case h_4 => rfl

end Clause
end RuleTree
