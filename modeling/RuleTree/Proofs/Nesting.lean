import RuleTree.Proofs.FieldNames
import RuleTree.Proofs.QuotedNames

/-! # Nesting

A limit of the depth is looked at on the way down, where a group of a clause is about to become
one of the tree.  Parentheses around the whole make none, nor do those of a range that is
recovered, so what is counted is how deep the groups of the tree are nested (`Node.nesting`).
The guard is exact: a source of a text that has a tree has the same one under every limit that
its nesting keeps, and is refused under every other (`Query.parse_maxDepth`).

The tree is the one in which combinators stand between the members.  The step that is taken for
a member is `Clause.toMember_limited`: its depth and its own nesting together decide.
-/
namespace RuleTree

/-! ### How deep trees are -/

namespace Node

mutual
/-- How deep groups are nested in a tree, the root counting as one. -/
def nesting : Node → Nat
  | .rule _ => 0
  | .group _ _ children => nestingAll children + 1
  | .interleaved _ items => nestingAll items + 1
  | .bare _ => 0

/-- How deep groups are nested in the deepest of some trees. -/
def nestingAll : List Node → Nat
  | [] => 0
  | node :: rest => max (nesting node) (nestingAll rest)
end

end Node

/-- A plan with a limit of the depth. -/
def ParsePlan.limited (plan : ParsePlan) (limit : Nat) : ParsePlan :=
  { plan with maxDepth := some (.int limit) }

/-- A plan for trees in which combinators stand between the members. -/
def ParsePlan.inTurns (plan : ParsePlan) : ParsePlan := { plan with interleaved := true }

/-! ### Steps under a limit -/

namespace Result
variable {α β : Type} {limit m n : Nat}

/-- What is given up to a depth, and refused below it. -/
def upTo (limit depth : Nat) (a : α) : Result α :=
  if depth ≤ limit then .ok a else (ParseFault.tooDeep (.int limit)).fail

theorem upTo_of_le (h : n ≤ limit) (a : α) : upTo limit n a = .ok a := if_pos h

/-- Steps in a row are refused as one step to the deepest of them. -/
theorem upTo_bind {a : α} {b : β} {f : α → Result β} (hmn : m ≤ n)
    (h : m ≤ limit → f a = upTo limit n b) : (upTo limit m a >>= f) = upTo limit n b := by
  by_cases hm : m ≤ limit
  · rw [upTo_of_le hm, Result.ok_bind, h hm]
  · have hn : ¬n ≤ limit := fun hn => hm (hmn.trans hn)
    rw [upTo, upTo, if_neg hm, if_neg hn]
    rfl

end Result

theorem ParsePlan.checkDepth_limited (plan : ParsePlan) (limit depth : Nat) :
    (plan.limited limit).checkDepth depth = Result.upTo limit depth () := by
  have hless : (Value.int limit).lessThanInt depth = .ok (decide ((limit : Int) < depth)) := rfl
  rw [checkDepth, limited]
  dsimp only
  rw [hless, Result.ok_bind, Result.upTo]
  by_cases h : depth ≤ limit
  · rw [if_pos h, if_neg (by simpa using h)]
    rfl
  · rw [if_neg h, if_pos (by simpa using h)]

namespace Clause
open Result
variable (traits : SourceTraits) {plan : ParsePlan} (limit : Nat)

/-- Members in a row are as deep as the deepest of them. -/
theorem toTurns_limited {depth : Nat} (hdepth : depth ≤ limit) {tail : List (Junction × Clause)}
    (ih : ∀ e ∈ tail, ∀ m, toMember traits plan depth e.2 = .ok m →
      toMember traits (plan.limited limit) depth e.2 = upTo limit (depth + m.nesting) m)
    {turns : List Node} (h : toTurns traits plan depth tail = .ok turns) :
    toTurns traits (plan.limited limit) depth tail =
      upTo limit (depth + Node.nestingAll turns) turns := by
  induction tail generalizing turns with
  | nil =>
    obtain rfl := Except.ok.inj h
    exact (upTo_of_le hdepth []).symm
  | cons e tail iht =>
    obtain ⟨he, htail⟩ := List.forall_mem_cons.mp ih
    rw [toTurns] at h ⊢
    obtain ⟨m, hm, h⟩ := Result.bind_eq_ok h
    obtain ⟨rest, hrest, h⟩ := Result.bind_eq_ok h
    obtain rfl := Except.ok.inj h
    have hnesting : Node.nestingAll (.bare (.text e.1.name) :: m :: rest) =
        max m.nesting (Node.nestingAll rest) := by
      rw [Node.nestingAll, Node.nestingAll, Node.nesting, Nat.zero_max]
    rw [he m hm, hnesting]
    refine upTo_bind (by omega) fun hmember => ?_
    rw [iht htail hrest]
    exact upTo_bind (by omega) fun hturns => (upTo_of_le (by omega) _).symm

/-- The members of a group decide with their own depth. -/
theorem members_limited {depth : Nat} {flags : GroupFlags} {head : Clause}
    {tail : List (Junction × Clause)}
    (ihead : ∀ m, toMember traits plan (depth + 1) head = .ok m → depth + 1 ≤ limit →
      toMember traits (plan.limited limit) (depth + 1) head =
        upTo limit (depth + 1 + m.nesting) m)
    (itail : ∀ e ∈ tail, ∀ m, toMember traits plan (depth + 1) e.2 = .ok m → depth + 1 ≤ limit →
      toMember traits (plan.limited limit) (depth + 1) e.2 =
        upTo limit (depth + 1 + m.nesting) m)
    {group : Node} (h : (do
      plan.checkDepth (depth + 1)
      let first ← toMember traits plan (depth + 1) head
      return Node.interleaved flags (first :: (← toTurns traits plan (depth + 1) tail))) =
        Except.ok group) :
    (do
      (plan.limited limit).checkDepth (depth + 1)
      let first ← toMember traits (plan.limited limit) (depth + 1) head
      return Node.interleaved flags
        (first :: (← toTurns traits (plan.limited limit) (depth + 1) tail))) =
      upTo limit (depth + group.nesting) group := by
  obtain ⟨-, -, h⟩ := Result.bind_eq_ok h
  obtain ⟨first, hfirst, h⟩ := Result.bind_eq_ok h
  obtain ⟨turns, hturns, h⟩ := Result.bind_eq_ok h
  obtain rfl := Except.ok.inj h
  have hnesting : (Node.interleaved flags (first :: turns)).nesting =
      max first.nesting (Node.nestingAll turns) + 1 := by
    rw [Node.nesting, Node.nestingAll]
  rw [ParsePlan.checkDepth_limited, hnesting]
  refine upTo_bind (by omega) fun hdepth => ?_
  rw [ihead first hfirst hdepth]
  refine upTo_bind (by omega) fun hmember => ?_
  rw [toTurns_limited traits limit hdepth (fun e he m hm => itail e he m hm hdepth) hturns]
  exact upTo_bind (by omega) fun hall => (upTo_of_le (by omega) _).symm

/-- A member is refused where its depth and its own nesting are too many groups together. -/
theorem toMember_limited (c : Clause) : ∀ {depth : Nat} {m : Node},
    toMember traits plan depth c = .ok m → depth ≤ limit →
      toMember traits (plan.limited limit) depth c = upTo limit (depth + m.nesting) m := by
  induction c using induct with
  | rule r =>
    intro depth m h hdepth
    rw [toMember] at h ⊢
    obtain rfl := Except.ok.inj h
    exact (upTo_of_le (by rwa [Node.nesting]) _).symm
  | constant _ =>
    intro depth m h
    cases h
  | empty negated =>
    intro depth m h hdepth
    rw [toMember] at h ⊢
    obtain ⟨-, -, h⟩ := Result.bind_eq_ok h
    obtain rfl := Except.ok.inj h
    rw [ParsePlan.checkDepth_limited]
    exact upTo_bind (Nat.le_refl _) fun hroom => (upTo_of_le hroom _).symm
  | group negated head tail ihead itail =>
    intro depth m h hdepth
    rw [toMember] at h ⊢
    cases hrecovered : recovered? traits negated head tail with
    | some r =>
      rw [hrecovered] at h
      obtain rfl := Except.ok.inj h
      exact (upTo_of_le (by rwa [Node.nesting]) _).symm
    | none =>
      rw [hrecovered] at h
      exact members_limited traits limit (fun m => ihead) (fun e he m => itail e he) h

/-- A root is refused where its nesting is too much. -/
theorem toGroup_limited {c : Clause} {group : Node} (h : toGroup traits plan c = .ok group) :
    toGroup traits (plan.limited limit) c = upTo limit group.nesting group := by
  cases c with
  | group negated head tail =>
    rw [toGroup] at h ⊢
    have hgroup := members_limited traits limit (fun _ => toMember_limited traits limit head)
      (fun e _ _ => toMember_limited traits limit e.2) h
    rw [Nat.zero_add group.nesting] at hgroup
    exact hgroup
  | empty negated =>
    rw [toGroup] at h ⊢
    obtain ⟨-, -, h⟩ := Result.bind_eq_ok h
    obtain rfl := Except.ok.inj h
    rw [ParsePlan.checkDepth_limited]
    exact upTo_bind (Nat.le_refl _) fun hroom => (upTo_of_le hroom _).symm
  | constant _ =>
    obtain ⟨-, -, h⟩ := Result.bind_eq_ok h
    cases h
  | rule r =>
    have hgroup := @members_limited traits plan limit 0 {} (.rule r) []
      (fun _ => toMember_limited traits limit (.rule r)) (by simp) group h
    rw [Nat.zero_add group.nesting] at hgroup
    exact hgroup

/-! ### Trees -/

/-- The plan has no say in a group but for its limit and the rules in it. -/
theorem toGroup_inTurns (plan : ParsePlan) (c : Clause) :
    toGroup traits plan.inTurns c = toGroup traits plan c := by
  rw [toGroup_eq_map, toGroup_eq_map traits plan]
  rfl

/-- **The guard.**  A clause that has a tree has one in which combinators stand between the
members, and the same one under every limit that its nesting keeps. -/
theorem toTree_limited {matching : Bool} (hplan : plan.CountsDepth) {root : Option Clause}
    (hroot : ∀ c ∈ root, c.IsRead matching) {t : Node} (h : toTree traits plan root = .ok t) :
    ∃ tree, toTree traits plan.inTurns root = .ok tree ∧
      ∀ limit, toTree traits (plan.inTurns.limited limit) root = upTo limit tree.nesting tree := by
  rw [toTree_eq] at h
  obtain ⟨group, hgroup, h⟩ := Result.bind_eq_ok h
  obtain ⟨t', ht', hchecked⟩ := Result.bind_eq_ok h
  have hread := (((IsRead.rootOf traits hroot).reads_toGroup traits hplan.within).gives group
    hgroup).2.shape
  have htexts : ∀ r ∈ group.rules, ∀ name ∈ namedFields r, ∃ s, name = .text s :=
    fun r hr _ hname => (hread.of_mem_rules r hr).exists_text_of_mem_namedFields hname
  have hrules := rules_of_shaped ht'
  -- the check is about the rules, which are those of the group in either shape
  have hgroupChecked : checked plan group = .ok group := by
    obtain rfl := eq_of_checked hchecked
    rw [checked_eq_ok_iff plan htexts, ← hrules]
    exact (checked_eq_ok_iff plan (hrules ▸ htexts)).mp hchecked
  have hgroup' : toGroup traits plan.inTurns (rootOf traits root) = .ok group :=
    (toGroup_inTurns traits plan _).trans hgroup
  refine ⟨group, ?_, fun limit => ?_⟩
  · rw [toTree_eq, hgroup']
    exact hgroupChecked
  · rw [toTree_eq, toGroup_limited traits limit hgroup']
    exact upTo_bind (Nat.le_refl _) fun hroom => hgroupChecked.trans (upTo_of_le hroom _).symm

end Clause

/-! ### Options -/

namespace ParseOptions
variable {o : ParseOptions} {plan : ParsePlan} (h : o.resolve = .ok plan)
include h

theorem resolve_inTurns :
    ({ o with interleaved := .bool true } : ParseOptions).resolve = .ok plan.inTurns := by
  obtain ⟨hdepth, hpolicy, hfields, -, hlists⟩ := of_resolve h
  have hlimit : ({ o with interleaved := .bool true } : ParseOptions).depthLimit =
      .ok plan.maxDepth := hdepth
  rw [resolve_eq, hlimit, Result.ok_bind, hpolicy, Result.ok_bind, hfields, Result.ok_bind,
    ← hlists]
  rfl

theorem resolve_limited {limit : Nat} (hlimit : 1 ≤ limit) :
    ({ o with maxDepth := .int limit } : ParseOptions).resolve = .ok (plan.limited limit) := by
  obtain ⟨-, hpolicy, hfields, hinterleaved, hlists⟩ := of_resolve h
  have hdepth : ({ o with maxDepth := .int limit } : ParseOptions).depthLimit =
      .ok (some (.int limit)) := by
    have hless : (Value.int limit).lessThanInt 1 = .ok (decide ((limit : Int) < 1)) := rfl
    have hroom : ¬(limit : Int) < 1 := by omega
    show (Value.lessThanInt (.int limit) 1 >>= _) = _
    rw [hless, decide_eq_false hroom]
    rfl
  rw [resolve_eq, hdepth, Result.ok_bind, hpolicy, Result.ok_bind, hfields, Result.ok_bind,
    ← hinterleaved, ← hlists]
  rfl

end ParseOptions

namespace Query

/-- **Depth.**  A text that has a tree, in SQL, CEL or SpEL and with whatever options, has one
in which combinators stand between the members, has the same one with every limit of the depth
that the nesting of that tree keeps, and is refused with every lower one. -/
theorem parse_maxDepth {source : Source} {dialect : Value} {entry : String × Reader}
    (hreader : reader dialect = .ok entry) (htext : entry.1 ∈ ["sql", "cel", "spel"])
    {input : OptionsInput ParseOptions} {overrides : List (String × OptionValue)} {t : Node}
    (hparse : parse source dialect input overrides = .ok t) :
    ∃ tree, parse source dialect input
        (overrides ++ [("independent_combinators", .plain (.bool true))]) = .ok tree ∧
      ∀ limit : Nat, 1 ≤ limit →
        parse source dialect input (overrides ++ [("independent_combinators", .plain (.bool true)),
          ("max_depth", .plain (.int limit))]) =
            if tree.nesting ≤ limit then .ok tree else (ParseFault.tooDeep (.int limit)).fail := by
  obtain ⟨_, _, hrest⟩ := Result.bind_eq_ok hparse
  obtain ⟨o, hbuild, hrest⟩ := Result.bind_eq_ok hrest
  obtain ⟨plan, hplan, -⟩ := Result.bind_eq_ok hrest
  have hturns := ParseOptions.resolve_inTurns hplan
  have hagain {more : List (String × OptionValue)} {o' : ParseOptions} {plan' : ParsePlan}
      (hmore : o.merge more = .ok o') (hplan' : o'.resolve = .ok plan') :
      parse source dialect input (overrides ++ more) = readSource entry source plan' :=
    parse_eq_readSource hreader ((ParseOptions.build_append hbuild more).trans hmore) hplan'
  rw [parse_eq_readSource hreader hbuild hplan] at hparse
  obtain ⟨v, hread⟩ := exists_value_of_readSource hparse
  obtain ⟨traits, clause, hclause, hentry⟩ := exists_clause_of_text (mem_readers hreader) htext v
  rw [hread] at hparse
  dsimp only at hparse
  rw [hentry] at hparse
  obtain ⟨root, hroot, htree⟩ := Result.bind_eq_ok hparse
  obtain ⟨tree, hfree, hlimited⟩ := Clause.toTree_limited traits
    (ParseOptions.countsDepth_of_resolve hplan) (hclause.gives root hroot) htree
  refine ⟨tree, ?_, fun limit hlimit => ?_⟩
  · rw [hagain rfl hturns, hread]
    dsimp only
    rw [hentry, hroot]
    exact hfree
  · rw [hagain rfl (ParseOptions.resolve_limited hturns hlimit), hread]
    dsimp only
    rw [hentry, hroot]
    exact hlimited limit

end Query

/-- A conjunction inside a disjunction. -/
def Sql.nestedText : String := "(\"a\" = 'x' or (\"b\" = 'x' and \"c\" = 'x'))"

/-- It is read as one group inside another. -/
theorem Sql.read_nestedText (plan : ParsePlan) :
    read plan (.text nestedText) = Clause.toTree traits plan (some (.join .and false
      [.join .or false [.rule (Rule.of "a" .eq (.text "x")), .join .and false
        [.rule (Rule.of "b" .eq (.text "x")), .rule (Rule.of "c" .eq (.text "x"))]]])) := by
  have hnone : '"' ∉ "a".toList ∧ '"' ∉ "b".toList ∧ '"' ∉ "c".toList := by decide
  have hinner := Source.Stands.group punctuates .and
    (.cons (stands_quoted hnone.2.1) (.cons (stands_quoted hnone.2.2) .nil))
  have houter := Source.Stands.group punctuates .or
    (.cons (stands_quoted hnone.1) (.cons hinner .nil))
  have hread := Source.readText_terms punctuates .sql .and (s := nestedText) (by decide)
    (.cons houter .nil)
  rw [read, Source.Meaning.within_none, hread]
  rfl

/-- So a limit of two groups is kept, and one of a single group is not. -/
theorem Query.parse_maxDepth_specimen :
    ∃ tree : Node, tree.nesting = 2 ∧
      parse (.value (.text Sql.nestedText)) (.text "sql") .defaults
        [("independent_combinators", .plain (.bool true)), ("max_depth", .plain (.int 2))] =
          .ok tree ∧
      parse (.value (.text Sql.nestedText)) (.text "sql") .defaults
        [("independent_combinators", .plain (.bool true)), ("max_depth", .plain (.int 1))] =
          (ParseFault.tooDeep (.int 1)).fail := by
  have hreader : reader (.text "sql") = .ok ("sql", Sql.read) := rfl
  have hparse : parse (.value (.text Sql.nestedText)) (.text "sql") .defaults [] = .ok _ :=
    (parse_sql _).trans ((Sql.read_nestedText {}).trans rfl)
  obtain ⟨tree, hfree, hlimited⟩ := parse_maxDepth hreader (by decide) hparse
  have hturns : parse (.value (.text Sql.nestedText)) (.text "sql") .defaults
      [("independent_combinators", .plain (.bool true))] = .ok _ :=
    (parse_eq_readSource hreader rfl rfl).trans
      ((Sql.read_nestedText { interleaved := true }).trans rfl)
  obtain rfl := Except.ok.inj (hturns.symm.trans hfree)
  exact ⟨_, rfl, (hlimited 2 (by decide)).trans rfl, (hlimited 1 (by decide)).trans rfl⟩

end RuleTree
