import RuleTree.Clause.Tree
import RuleTree.Proofs.StandardForm

/-! # Truth values of clauses

A `Valuation` says which conditions hold of the data that a query is about.  It
knows that inverse operators are complements and that a range is its two
bounds.  Under a valuation a clause is a sequence with `and` before `or`
(`Clause.truth`), and a tree is read as its interpretation.

What is built from a clause says what the clause says.  Each step on the way
keeps the truth value: a range that is recovered holds where its two comparisons
do (`truth_of_recovered`), a member becomes a member that says the same
(`IsPlain.toMember`), and parentheses that are dropped around the root say
nothing (`truth_unwrapRoot`).  `truth_of_toTree` puts them together, and
`truth_of_negate` is the same for complements.
-/
namespace RuleTree

/-- Which conditions hold. -/
structure Valuation where
  /-- The truth value of a field, a source, an operator and a value. -/
  holds : Value → ValueSource → Operator → Value → Bool
  /-- Equal fields and sources are the same. -/
  congr {f g : Value} {s t : ValueSource} :
    f.equals g = true → s.equals t = true → holds f s = holds g t
  /-- The inverse of an operator is its complement. -/
  inverse (f : Value) (s : ValueSource) (op : Operator) (v : Value) :
    holds f s op.inverse v = !holds f s op v
  /-- A range is its bounds. -/
  between (f : Value) (s : ValueSource) (low high : Value) :
    holds f s .between (.list [low, high]) = (holds f s .ge low && holds f s .le high)

namespace Valuation
variable (V : Valuation)

/-- Outside of a range is below it or above it. -/
theorem notBetween (f : Value) (s : ValueSource) (low high : Value) :
    V.holds f s .notBetween (.list [low, high]) =
      (V.holds f s .lt low || V.holds f s .gt high) := by
  have hrange := V.inverse f s .between (.list [low, high])
  have hlow := V.inverse f s .ge low
  have hhigh := V.inverse f s .le high
  simp only [Operator.inverse] at hrange hlow hhigh
  rw [hrange, V.between, hlow, hhigh, Bool.not_and]

/-- The truth value of a rule; one whose operator is not known does not hold. -/
def rule (r : Rule) : Bool :=
  match r.operator? with
  | some op => V.holds r.field r.source op r.value
  | none => false

theorem rule_eq {r : Rule} {op : Operator} (h : r.operator? = some op) :
    V.rule r = V.holds r.field r.source op r.value := by
  rw [rule, h]

/-- The rule with the inverse operator is the complement. -/
theorem rule_invertRule {r : Rule} {op : Operator} (h : r.operator? = some op) :
    V.rule (Clause.invertRule r) = !V.rule r := by
  have hinverse : ({ r with operator := op.inverse.toValue } : Rule).operator? =
      some op.inverse := Operator.ofValue?_toValue op.inverse
  rw [Clause.invertRule, h]
  simp only
  rw [V.rule_eq hinverse, V.rule_eq h]
  exact V.inverse r.field r.source op r.value

end Valuation

/-! ### What a clause says -/

/-- A sequence of truth values as an `or` of `and`s, read from left to right:
`run` is the `and` that the next value may still belong to. -/
def flat (run : Bool) : List (Junction × Bool) → Bool
  | [] => run
  | (.and, b) :: rest => flat (run && b) rest
  | (.or, b) :: rest => run || flat b rest

namespace Clause

mutual
/-- The truth value of a clause; an empty sequence holds. -/
def truth (V : Valuation) : Clause → Bool
  | .rule r => V.rule r
  | .constant _ => true
  | .empty negated => negated ^^ true
  | .group negated head tail => negated ^^ flat (truth V head) (turnTruths V tail)

/-- The truth values of the members of a sequence, with their junctions. -/
def turnTruths (V : Valuation) : List (Junction × Clause) → List (Junction × Bool)
  | [] => []
  | (junction, c) :: rest => (junction, truth V c) :: turnTruths V rest
end

/-- A clause without constants whose rules name operators. -/
inductive IsPlain : Clause → Prop where
  | rule {r : Rule} {op : Operator} : r.operator? = some op → IsPlain (.rule r)
  | empty (negated : Bool) : IsPlain (.empty negated)
  | group {negated : Bool} {head : Clause} {tail : List (Junction × Clause)} :
      IsPlain head → (∀ e ∈ tail, IsPlain e.2) → IsPlain (.group negated head tail)

section
variable {V : Valuation} {c : Clause}

/-- **Complements.**  The complement of a clause holds where the clause does
not. -/
theorem truth_of_negate (hc : c.IsPlain) : ∃ d, c.negate = .ok d ∧ truth V d = !truth V c := by
  cases hc with
  | @rule r op hop => exact ⟨_, rfl, by rw [truth, truth, V.rule_invertRule hop]⟩
  | empty negated => exact ⟨_, rfl, by rw [truth, truth, Bool.not_xor]⟩
  | group => exact ⟨_, rfl, by rw [truth, truth, Bool.not_xor]⟩

/-- A plain clause is no constant, whatever the parentheses. -/
theorem IsPlain.isConstant_eq_false (hc : c.IsPlain) : c.isConstant = false := by
  induction hc with
  | rule | empty => rfl
  | @group negated head tail _ _ ih _ =>
    cases negated with
    | true => rfl
    | false =>
      cases tail with
      | nil => exact ih
      | cons => rfl

/-! ### Dropped parentheses -/

section
variable (traits : SourceTraits)

theorem truth_parentheses (c : Clause) : truth V (.group false c []) = truth V c := by
  rw [truth, turnTruths, flat, Bool.false_xor]

theorem truth_unwrapRoot (c : Clause) : truth V (unwrapRoot traits c) = truth V c := by
  fun_cases unwrapRoot traits c with
  | case1 | case3 => exact (truth_parentheses _).symm
  | case5 => exact truth_parentheses _
  | case2 | case4 | case6 => rfl

theorem isPlain_unwrapRoot (hc : c.IsPlain) : (unwrapRoot traits c).IsPlain := by
  fun_cases unwrapRoot traits c with
  | case1 | case3 =>
    cases hc with
    | group hinner _ => exact hinner
  | case5 r => exact .group hc (by simp)
  | case2 | case4 | case6 => exact hc

end

/-! ### Recovered ranges -/

/-- A range that is recovered from two comparisons holds where they do. -/
theorem truth_of_recoverRange {negated : Bool} {head : Clause} {tail : List (Junction × Clause)}
    {r : Rule} (h : recoverRange? negated head tail = some r) :
    V.rule r = truth V (.group negated head tail) := by
  unfold recoverRange? at h
  split at h
  case h_2 => cases h
  case h_1 low junction high =>
    split at h
    case isFalse => cases h
    case isTrue hsame =>
      obtain ⟨hfield, hsource⟩ := Bool.and_eq_true_iff.mp hsame
      have hsame := V.congr hfield hsource
      have hrange : ∀ op : Operator, V.rule { low with
          operator := op.toValue, value := .list [low.value, high.value],
          disabled := false, id := .null } =
          V.holds low.field low.source op (.list [low.value, high.value]) :=
        fun op => V.rule_eq (Operator.ofValue?_toValue op)
      split at h
      case h_1 hlow hhigh =>
        obtain rfl := Option.some.inj h
        rw [hrange, V.between, truth, truth, turnTruths, turnTruths, truth, V.rule_eq hlow,
          V.rule_eq hhigh, hsame]
        simp [flat]
      case h_2 hlow hhigh =>
        obtain rfl := Option.some.inj h
        rw [hrange, V.notBetween, truth, truth, turnTruths, turnTruths, truth, V.rule_eq hlow,
          V.rule_eq hhigh, hsame]
        simp [flat]
      case h_3 => cases h

theorem truth_of_recovered {traits : SourceTraits} {negated : Bool} {head : Clause}
    {tail : List (Junction × Clause)} {r : Rule}
    (h : recovered? traits negated head tail = some r) :
    V.rule r = truth V (.group negated head tail) := by
  rw [recovered?] at h
  split at h
  · exact truth_of_recoverRange h
  · cases h

end
end Clause

/-! ### Members -/

/-- A sequence of `and`s and `or`s has nothing between them. -/
theorem Interpretation.ranked_eq_flat (run : Bool) (tail : List (Junction × Bool)) :
    ranked false run (tail.map fun e => (e.1.name, e.2)) = flat run tail := by
  induction tail generalizing run with
  | nil => simp [ranked, flat]
  | cons e tail ih =>
    obtain ⟨_ | _, b⟩ := e
    · rw [flat, ← ih]
      rfl
    · rw [flat, ← ih, List.map_cons, Junction.name]
      simp [ranked]

namespace Node
variable {I : Interpretation}

/-- A member of interleaved groups that has a standard form and a truth
value. -/
structure Says (I : Interpretation) (m : Node) (b : Bool) : Prop where
  member : m.IsMember
  tree : m.IsTree
  unmixed : ¬m.HasMixture
  truth : m.truth I = b

theorem says_rule (r : Rule) : Says I (.rule r) (I.rule r) where
  member := .rule r
  tree := .rule r
  unmixed := not_hasMixture_rule r
  truth := truth_rule I r

theorem says_empty (negated : Bool) :
    Says I (.interleaved { negated := negated } []) (negated ^^ true) where
  member := .interleaved _ _
  tree := .interleaved rfl (by simp [turnMembers, everySecond])
  unmixed := not_hasMixture_interleaved (by decide) (by simp)
  truth := truth_interleaved_nil I _

/-- Members with junctions between them say the sequence of what they say. -/
theorem Says.interleaved {head : Node} {tail : List (String × Node)} {b : Bool}
    {said : List (Junction × Bool)} (hhead : Says I head b)
    (htail : List.Forall₂ (fun v e => e.1 = v.1.name ∧ Says I e.2 v.2) said tail)
    (flags : GroupFlags) :
    Says I (.interleaved flags (alternate head tail)) (flags.negated ^^ flat b said) := by
  have hmembers : ∀ e ∈ tail, ∃ j : Junction, e.1 = j.name ∧ ∃ v, Says I e.2 v :=
    forall_mem_right htail fun v _ e he => ⟨v.1, he.1, v.2, he.2⟩
  have hnames : normalized tail = tail := by
    refine (List.map_congr_left fun e he => ?_).trans (List.map_id tail)
    obtain ⟨j, hj, -⟩ := hmembers e he
    have hname : Text.lower (Text.trim e.1) = e.1 := by
      rw [hj]
      exact combinatorName_sign j
    exact Prod.ext hname rfl
  have hordered : ∀ e ∈ tail, e.1 ∈ precedence := fun e he => by
    obtain ⟨j, hj, -⟩ := hmembers e he
    rw [hj]
    cases j <;> decide
  have hvalues : values I tail = said.map fun v => (v.1.name, v.2) :=
    map_eq_of_forall₂ htail fun v e he => by rw [he.1, he.2.truth]
  refine ⟨.interleaved _ _, .interleaved ?_ ?_, not_hasMixture_interleaved ?_ ?_, ?_⟩
  · refine checkTurns_alternate hhead.member fun e he => ?_
    obtain ⟨_, _, _, hsays⟩ := hmembers e he
    exact hsays.member
  · rw [turnMembers_alternate]
    refine List.forall_mem_cons.mpr ⟨hhead.tree, List.forall_mem_map.mpr fun e he => ?_⟩
    obtain ⟨_, _, _, hsays⟩ := hmembers e he
    exact hsays.tree
  · rw [isMixture_alternate_iff, hnames]
    rintro ⟨-, -, e, he, -, hunknown⟩
    exact hunknown (hordered e he)
  · refine forall_mem_alternate hhead.unmixed (fun _ => not_hasMixture_bare _) fun e he => ?_
    obtain ⟨_, _, _, hsays⟩ := hmembers e he
    exact hsays.unmixed
  · rw [truth_alternate, hnames, I.sequence_eq_ranked (forall_values hordered), hvalues,
      Interpretation.ranked_eq_flat, hhead.truth]

end Node

/-! ### Trees of clauses -/

/-- Reading with literals as they are and lists as lists, with the tree in either
shape. -/
def ParsePlan.shaped (interleaved : Bool) : ParsePlan :=
  { listsAsArrays := true, interleaved := interleaved }

/-- Trees under a valuation, with any meaning for the combinators that no clause
has. -/
def Valuation.interpretation (V : Valuation) (other : Value → List Bool → Bool) :
    Interpretation :=
  { rule := V.rule, other := other }

namespace Clause
variable {V : Valuation} {other : Value → List Bool → Bool} (traits : SourceTraits)
  (interleaved : Bool)

theorem finishRule_shaped (r : Rule) : finishRule (.shaped interleaved) r = r := by
  obtain ⟨field, operator, value, source, disabled, id⟩ := r
  cases value <;> simp [finishRule, ParsePlan.shaped, Value.withNumbers_never]

/-- Clauses that become members in a row become a sequence of them. -/
theorem toTurns_of_forall {depth : Nat} {tail : List (Junction × Clause)}
    (h : ∀ e ∈ tail, ∃ m, toMember traits (.shaped interleaved) depth e.2 = .ok m ∧
      m.Says (V.interpretation other) (truth V e.2)) :
    ∃ entries : List (String × Node), toTurns traits (.shaped interleaved) depth tail =
        .ok (entries.flatMap fun e => [.bare (.text e.1), e.2]) ∧
      List.Forall₂ (fun v e => e.1 = v.1.name ∧ e.2.Says (V.interpretation other) v.2)
        (turnTruths V tail) entries := by
  induction tail with
  | nil => exact ⟨[], rfl, .nil⟩
  | cons e tail ih =>
    obtain ⟨⟨m, hm, hsays⟩, hrest⟩ := List.forall_mem_cons.mp h
    obtain ⟨entries, hentries, hall⟩ := ih hrest
    refine ⟨(e.1.name, m) :: entries, ?_, .cons ⟨rfl, hsays⟩ hall⟩
    rw [toTurns, hm, hentries]
    rfl

/-- The members of a group say together what the group says. -/
theorem says_of_members {depth : Nat} {head : Clause} {tail : List (Junction × Clause)}
    (hhead : ∃ m, toMember traits (.shaped interleaved) depth head = .ok m ∧
      m.Says (V.interpretation other) (truth V head))
    (htail : ∀ e ∈ tail, ∃ m, toMember traits (.shaped interleaved) depth e.2 = .ok m ∧
      m.Says (V.interpretation other) (truth V e.2)) (negated : Bool) :
    ∃ first turns, toMember traits (.shaped interleaved) depth head = .ok first ∧
      toTurns traits (.shaped interleaved) depth tail = .ok turns ∧
      (Node.interleaved { negated := negated } (first :: turns)).Says (V.interpretation other)
        (truth V (.group negated head tail)) := by
  obtain ⟨first, hfirst, hsays⟩ := hhead
  obtain ⟨entries, hentries, hall⟩ := toTurns_of_forall traits interleaved htail
  refine ⟨first, _, hfirst, hentries, ?_⟩
  rw [truth]
  exact hsays.interleaved hall { negated := negated }

/-- A plain clause becomes a member that says the same, however deep it is. -/
theorem toMember_of_isPlain {c : Clause} (hc : c.IsPlain) (depth : Nat) :
    ∃ m, toMember traits (.shaped interleaved) depth c = .ok m ∧
      m.Says (V.interpretation other) (truth V c) := by
  induction hc generalizing depth with
  | @rule r op _ =>
    refine ⟨.rule r, by rw [toMember, finish_none, finishRule_shaped], ?_⟩
    rw [truth]
    exact Node.says_rule r
  | empty negated =>
    refine ⟨.interleaved { negated := negated } [], rfl, ?_⟩
    rw [truth]
    exact Node.says_empty negated
  | @group negated head tail _ _ ihead itail =>
    cases hrange : recovered? traits negated head tail with
    | some r =>
      refine ⟨.rule r, by rw [toMember, hrange]; simp only [finish_none, finishRule_shaped], ?_⟩
      rw [← truth_of_recovered hrange]
      exact Node.says_rule r
    | none =>
      obtain ⟨first, turns, hfirst, hturns, hsays⟩ := says_of_members traits interleaved
        (ihead (depth + 1)) (fun e he => itail e he (depth + 1)) negated
      refine ⟨_, ?_, hsays⟩
      rw [toMember, hrange]
      simp only [hfirst, hturns]
      rfl

/-- A plain clause becomes a root that says the same. -/
theorem toGroup_of_isPlain {c : Clause} (hc : c.IsPlain) :
    ∃ flags items, toGroup traits (.shaped interleaved) c = .ok (.interleaved flags items) ∧
      (Node.interleaved flags items).Says (V.interpretation other) (truth V c) := by
  cases hc with
  | @rule r op hop =>
    obtain ⟨m, hm, hsays⟩ : ∃ m, toMember traits (.shaped interleaved) 1 (.rule r) = .ok m ∧
        m.Says (V.interpretation other) (truth V (.rule r)) :=
      toMember_of_isPlain traits interleaved (.rule hop) 1
    refine ⟨{}, [m], by simp only [toGroup, hm]; rfl, ?_⟩
    have hgroup := hsays.interleaved .nil {}
    rwa [flat, Bool.false_xor] at hgroup
  | empty negated =>
    refine ⟨{ negated := negated }, [], rfl, ?_⟩
    rw [truth]
    exact Node.says_empty negated
  | @group negated head tail hhead htail =>
    obtain ⟨first, turns, hfirst, hturns, hsays⟩ := says_of_members traits interleaved
      (toMember_of_isPlain traits interleaved hhead 1)
      (fun e he => toMember_of_isPlain traits interleaved (htail e he) 1) negated
    exact ⟨_, _, by rw [toGroup, hfirst, hturns]; rfl, hsays⟩

/-- A plain clause becomes a tree that says the same. -/
theorem truth_of_toTree {c : Clause} (hc : c.IsPlain) :
    ∃ t, toTree traits (.shaped interleaved) (some c) = .ok t ∧
      t.truth (V.interpretation other) = truth V c := by
  obtain ⟨flags, items, hgroup, hsays⟩ : ∃ flags items,
      toGroup traits (.shaped interleaved) (unwrapRoot traits c) = .ok (.interleaved flags items) ∧
        (Node.interleaved flags items).Says (V.interpretation other)
          (truth V (unwrapRoot traits c)) :=
    toGroup_of_isPlain traits interleaved (isPlain_unwrapRoot traits hc)
  rw [truth_unwrapRoot] at hsays
  have hconstant := hc.isConstant_eq_false
  cases interleaved with
  | true =>
    refine ⟨_, ?_, hsays.truth⟩
    simp only [toTree, hconstant, Bool.false_eq_true, if_false, hgroup]
    rfl
  | false =>
    obtain ⟨t, ht⟩ := hsays.tree.exists_standardMember hsays.unmixed
    refine ⟨t, ?_, (Node.truth_of_standardMember _ ht).trans hsays.truth⟩
    simp only [toTree, hconstant, Bool.false_eq_true, if_false, hgroup]
    exact congrArg (· >>= _) ht

/-- **What is built from a clause, and the complement of the clause.**  The tree
of a plain clause has the truth value of the clause, whatever its dialect and
shape are, and its complement the opposite one. -/
theorem truth_of_toTree_and_negate {c : Clause} (hc : c.IsPlain) :
    (∃ t, toTree traits (.shaped interleaved) (some c) = .ok t ∧
        t.truth (V.interpretation other) = truth V c) ∧
      ∃ d, c.negate = .ok d ∧ truth V d = !truth V c :=
  ⟨truth_of_toTree traits interleaved hc, truth_of_negate hc⟩

end Clause

/-! ### Data of one value -/

namespace Valuation

/-- Whether a bound is an integer that the number reaches. -/
def reaches (n : Int) : Value → Bool
  | .int m => m ≤ n
  | _ => false

/-- Whether a bound is an integer that the number keeps to. -/
def keepsTo (n : Int) : Value → Bool
  | .int m => n ≤ m
  | _ => false

/-- Whether the bounds of a range are integers that the number is between. -/
def isWithin (n : Int) : Value → Bool
  | .list [low, high] => reaches n low && keepsTo n high
  | _ => false

/-- The valuation of data whose fields are all the same integer. -/
def constant (n : Int) : Valuation where
  holds _ _ op v :=
    match op with
    | .ge => reaches n v
    | .lt => !reaches n v
    | .le => keepsTo n v
    | .gt => !keepsTo n v
    | .eq => reaches n v && keepsTo n v
    | .ne => !(reaches n v && keepsTo n v)
    | .between => isWithin n v
    | .notBetween => !isWithin n v
    | .isIn | .null | .contains | .beginsWith | .endsWith => false
    | .notIn | .notNull | .doesNotContain | .doesNotBeginWith | .doesNotEndWith => true
  congr _ _ := rfl
  inverse _ _ op _ := by cases op <;> simp [Operator.inverse]
  between _ _ _ _ := rfl

end Valuation

/-- The negation of `(age >= 18 and age <= 65) or name contains "x" and rank != 3`. -/
def Clause.specimen : Clause :=
  .group true
    (.group false (.rule (Rule.of "age" .ge (.int 18)))
      [(.and, .rule (Rule.of "age" .le (.int 65)))])
    [(.or, .rule (Rule.of "name" .contains (.text "x"))),
      (.and, .rule (Rule.of "rank" .ne (.int 3)))]

theorem Clause.truth_of_specimen :
    Clause.specimen.IsPlain ∧
      (∃ t, Clause.toTree { rangesAsPairs := true } (.shaped false) (some Clause.specimen) = .ok t ∧
        t.truth ((Valuation.constant 20).interpretation fun _ _ => false) =
          Clause.specimen.truth (.constant 20)) ∧
      ∃ d, Clause.specimen.negate = .ok d ∧
        d.truth (.constant 20) = !Clause.specimen.truth (.constant 20) := by
  have hrule : ∀ (field : String) (op : Operator) (v : Value),
      (Clause.rule (Rule.of field op v)).IsPlain := fun _ op _ =>
    .rule (Operator.ofValue?_toValue op)
  have hplain : Clause.specimen.IsPlain := by
    refine .group (.group (hrule _ _ _) ?_) ?_
    · exact List.forall_mem_singleton.mpr (hrule _ _ _)
    · exact List.forall_mem_cons.mpr ⟨hrule _ _ _, List.forall_mem_singleton.mpr (hrule _ _ _)⟩
  exact ⟨hplain, Clause.truth_of_toTree_and_negate _ _ hplain⟩

end RuleTree
