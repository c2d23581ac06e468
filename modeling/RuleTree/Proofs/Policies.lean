import RuleTree.Proofs.Lockstep
import RuleTree.Proofs.RoundTrip

/-! # Number policies

A number policy is asked about the literals of a rule, both when the rule is
written and when it is read.  A tree whose literals it leaves alone is written
and read as with the policy `never` (`Writer.run_congr`, `Clause.toTree_of_keeps`),
so a round trip without a policy is one with every policy that keeps the tree.
For reading this needs that the rules of a clause are the rules of the tree that
it becomes (`Clause.rules_of_toTree`).
-/
namespace RuleTree

/-! ### Literals that a policy leaves alone -/

/-- The literals of a rule that number policies are asked about. -/
def Rule.literals (r : Rule) : List Value :=
  if Clause.readsNumbers r then
    match r.value with
    | .list items => items
    | v => [v]
  else []

/-- The values of a rule are literals, unless they are fields or texts to match. -/
theorem Clause.readsNumbers_eq {r : Rule} {op : Operator} (hop : r.operator? = some op)
    (htext : op.isTextMatch = false) : readsNumbers r = !r.comparesFields := by
  rw [readsNumbers, hop]
  simp [htext]

/-- The policy leaves the literals of the rule alone. -/
def Rule.Keeps (policy : NumberPolicy) (r : Rule) : Prop :=
  ∀ v ∈ r.literals, v.withNumbers policy = v

/-- The policy leaves the literals of every rule alone. -/
def Node.Keeps (policy : NumberPolicy) (t : Node) : Prop := ∀ r ∈ t.rules, r.Keeps policy

/-- Reading under a number policy, with list values kept as lists. -/
def ParsePlan.arraysUnder (policy : NumberPolicy) : ParsePlan :=
  { policy := policy, listsAsArrays := true }

/-- Writing in a dialect under a number policy. -/
def FormatPlan.usualUnder (policy : NumberPolicy) (dialect : Dialect) : FormatPlan :=
  { style := { format := .dialect dialect, policy := policy } }

namespace Node

theorem rules_withoutIds (t : Node) : t.withoutIds.rules = t.rules.map Rule.withoutId := by
  have hall : ∀ nodes : List Node, (∀ n ∈ nodes, n.withoutIds.rules = n.rules.map Rule.withoutId) →
      (nodes.map withoutIds).flatMap rules = (nodes.flatMap rules).map Rule.withoutId := by
    intro nodes h
    rw [List.flatMap_map, List.map_flatMap]
    exact List.flatMap_congr h
  induction t using induct with
  | rule r => rw [withoutIds, rules_rule, rules_rule]; rfl
  | bare v => rw [withoutIds, rules_bare]; rfl
  | group combinator flags children ih =>
    rw [withoutIds_group, rules_group, rules_group, hall children ih]
  | interleaved flags items ih =>
    rw [withoutIds, withoutIdsAll_eq_map, rules_interleaved, rules_interleaved, hall items ih]

/-- The rules of a canonical tree are canonical. -/
theorem Canonical.of_mem_rules {d : Repertoire} {isRoot : Bool} {t : Node}
    (h : t.Canonical d isRoot) : ∀ r ∈ t.rules, r.Canonical d := by
  induction h with
  | rule hr =>
    rw [rules_rule]
    exact List.forall_mem_singleton.mpr hr
  | group _ _ _ _ _ ih =>
    rw [rules_group]
    exact List.forall_mem_flatMap.mpr ih

/-- Ids do not matter to policies. -/
theorem Keeps.withoutIds {policy : NumberPolicy} {t : Node} (h : t.Keeps policy) :
    t.withoutIds.Keeps policy := by
  rw [Keeps, rules_withoutIds]
  exact List.forall_mem_map.mpr h

end Node

/-! ### Reading -/

namespace Clause
variable {traits : SourceTraits} {policy : NumberPolicy}

mutual
/-- The rules of a clause from left to right. -/
def rules : Clause → List Rule
  | .rule r => [r]
  | .constant _ => []
  | .empty _ => []
  | .group _ head tail => rules head ++ turnRules tail

/-- The rules of the members of a sequence. -/
def turnRules : List (Junction × Clause) → List Rule
  | [] => []
  | (_, c) :: rest => rules c ++ turnRules rest
end

/-- What holds of rules, of constants, of empty sequences and of every sequence
whose members it holds of, holds of every clause. -/
@[elab_as_elim]
theorem induct {P : Clause → Prop} (rule : ∀ r, P (.rule r))
    (constant : ∀ comparison, P (.constant comparison)) (empty : ∀ negated, P (.empty negated))
    (group : ∀ negated head tail, P head → (∀ e ∈ tail, P e.2) → P (.group negated head tail)) :
    ∀ c, P c
  | .rule r => rule r
  | .constant comparison => constant comparison
  | .empty negated => empty negated
  | .group negated head tail =>
    group negated head tail (induct rule constant empty group head) fun e _ =>
      induct rule constant empty group e.2
termination_by c => c
decreasing_by
  · simp only [Clause.group.sizeOf_spec]
    omega
  · have hlt : sizeOf e < sizeOf tail := List.sizeOf_lt_of_mem ‹_›
    obtain ⟨junction, c⟩ := e
    simp only [Prod.mk.sizeOf_spec, Clause.group.sizeOf_spec] at hlt ⊢
    omega

theorem turnRules_eq_flatMap (tail : List (Junction × Clause)) :
    turnRules tail = tail.flatMap fun e => rules e.2 := by
  induction tail with
  | nil => rfl
  | cons e tail ih => rw [turnRules, ih, List.flatMap_cons]

@[simp] theorem rules_group (negated : Bool) (head : Clause) (tail : List (Junction × Clause)) :
    rules (.group negated head tail) = rules head ++ tail.flatMap fun e => rules e.2 := by
  rw [rules, turnRules_eq_flatMap]

/-- A rule whose literals the policy leaves alone is read as it is. -/
theorem finishRule_of_keeps {r : Rule} (h : r.Keeps policy) :
    finishRule (.arraysUnder policy) r = r := by
  have hvalue : ∀ v, r.value = v → ({ r with value := v } : Rule) = r := by
    rintro v rfl
    rfl
  rw [Rule.Keeps, Rule.literals] at h
  unfold finishRule
  cases hnumbers : readsNumbers r with
  | false =>
    simp only [Bool.false_eq_true, if_false, List.map_id', ParsePlan.arraysUnder, if_true]
    split
    · next items hitems => exact hvalue _ hitems
    · rfl
  | true =>
    rw [hnumbers, if_pos rfl] at h
    simp only [ParsePlan.arraysUnder, if_true]
    split
    · next items hitems =>
      rw [hitems] at h
      exact hvalue _ (hitems.trans (by rw [(List.map_congr_left h).trans (List.map_id' items)]))
    · next hlist =>
      refine hvalue _ (h r.value ?_).symm
      split
      · next items hitems => exact absurd hitems (hlist items)
      · exact List.mem_singleton_self _

/-! ### The rules of a tree that is read -/

section
variable (htraits : traits.rangesAsPairs = false)
include htraits

theorem recovered?_of_rangesAsPairs (negated : Bool) (head : Clause)
    (tail : List (Junction × Clause)) : recovered? traits negated head tail = none := by
  simp [recovered?, htraits]

omit htraits in
theorem rules_of_toTurns {depth : Nat} {tail : List (Junction × Clause)} {turns : List Node}
    (ih : ∀ e ∈ tail, ∀ m, toMember traits .arrays depth e.2 = .ok m → m.rules = rules e.2)
    (h : toTurns traits .arrays depth tail = .ok turns) :
    turns.flatMap Node.rules = tail.flatMap fun e => rules e.2 := by
  induction tail generalizing turns with
  | nil =>
    obtain rfl := Except.ok.inj h
    rfl
  | cons e tail iht =>
    obtain ⟨he, htail⟩ := List.forall_mem_cons.mp ih
    rw [toTurns] at h
    obtain ⟨m, hm, h⟩ := Result.bind_eq_ok h
    obtain ⟨rest, hrest, h⟩ := Result.bind_eq_ok h
    obtain rfl := Except.ok.inj h
    simp [he m hm, iht htail hrest]

/-- A member has the rules of its clause. -/
theorem rules_of_toMember {c : Clause} {depth : Nat} {m : Node}
    (h : toMember traits .arrays depth c = .ok m) : m.rules = rules c := by
  induction c using induct generalizing depth m with
  | rule r =>
    rw [toMember, finish_none, finishRule_arrays] at h
    obtain rfl := Except.ok.inj h
    rw [Node.rules_rule, rules]
  | constant => cases h
  | empty =>
    obtain rfl := Except.ok.inj h
    rw [Node.rules_interleaved, rules]
    rfl
  | group negated head tail ihead itail =>
    rw [toMember_group (recovered?_of_rangesAsPairs htraits negated head tail)] at h
    obtain ⟨first, hfirst, h⟩ := Result.bind_eq_ok h
    obtain ⟨turns, hturns, h⟩ := Result.bind_eq_ok h
    obtain rfl := Except.ok.inj h
    rw [Node.rules_interleaved, List.flatMap_cons, ihead hfirst,
      rules_of_toTurns (fun e he _ hm => itail e he hm) hturns, rules_group]

theorem rules_of_toGroup {c : Clause} {g : Node} (h : toGroup traits .arrays c = .ok g) :
    g.rules = rules c := by
  unfold toGroup at h
  split at h
  · obtain ⟨_, -, h⟩ := Result.bind_eq_ok h
    obtain ⟨first, hfirst, h⟩ := Result.bind_eq_ok h
    obtain ⟨turns, hturns, h⟩ := Result.bind_eq_ok h
    obtain rfl := Except.ok.inj h
    rw [Node.rules_interleaved, List.flatMap_cons, rules_of_toMember htraits hfirst,
      rules_of_toTurns (fun _ _ _ hm => rules_of_toMember htraits hm) hturns, rules_group]
  · obtain ⟨_, -, h⟩ := Result.bind_eq_ok h
    obtain rfl := Except.ok.inj h
    rw [Node.rules_interleaved, rules]
    rfl
  · obtain ⟨_, -, h⟩ := Result.bind_eq_ok h
    obtain ⟨m, hm, h⟩ := Result.bind_eq_ok h
    obtain rfl := Except.ok.inj h
    rw [Node.rules_interleaved, List.flatMap_singleton, rules_of_toMember htraits hm]

/-! ### Clauses whose literals are left alone -/

omit htraits in
theorem toTurns_of_keeps {depth : Nat} {tail : List (Junction × Clause)}
    (ih : ∀ e ∈ tail, toMember traits (.arraysUnder policy) depth e.2 =
      toMember traits .arrays depth e.2) :
    toTurns traits (.arraysUnder policy) depth tail = toTurns traits .arrays depth tail := by
  induction tail with
  | nil => rfl
  | cons e tail iht =>
    obtain ⟨he, htail⟩ := List.forall_mem_cons.mp ih
    rw [toTurns, toTurns, he, iht htail]

theorem toMember_of_keeps {c : Clause} (h : ∀ r ∈ rules c, r.Keeps policy) (depth : Nat) :
    toMember traits (.arraysUnder policy) depth c = toMember traits .arrays depth c := by
  induction c using induct generalizing depth with
  | rule r =>
    rw [toMember, toMember, finish_none, finish_none, finishRule_arrays,
      finishRule_of_keeps (h r (by simp [rules]))]
  | constant | empty => rfl
  | group negated head tail ihead itail =>
    rw [rules_group] at h
    obtain ⟨hhead, htail⟩ := List.forall_mem_append.mp h
    have hturns := fun e he => itail e he fun r hr =>
      htail r (List.mem_flatMap.mpr ⟨e, he, hr⟩)
    rw [toMember, toMember, recovered?_of_rangesAsPairs htraits]
    simp only [ihead hhead, toTurns_of_keeps fun e he => hturns e he (depth + 1)]
    rfl

theorem toGroup_of_keeps {c : Clause} (h : ∀ r ∈ rules c, r.Keeps policy) :
    toGroup traits (.arraysUnder policy) c = toGroup traits .arrays c := by
  cases c with
  | empty => rfl
  | rule | constant =>
    simp only [toGroup, toMember_of_keeps htraits h]
    rfl
  | group negated head tail =>
    rw [rules_group] at h
    obtain ⟨hhead, htail⟩ := List.forall_mem_append.mp h
    have hturns : toTurns traits (.arraysUnder policy) 1 tail = toTurns traits .arrays 1 tail :=
      toTurns_of_keeps fun e he =>
        toMember_of_keeps htraits (fun r hr => htail r (List.mem_flatMap.mpr ⟨e, he, hr⟩)) 1
    simp only [toGroup, toMember_of_keeps htraits hhead, hturns]
    rfl

/-- **Reading under a policy.**  A tree whose literals the policy leaves alone is
read as without a policy. -/
theorem toTree_of_keeps {root : Option Clause} {t : Node}
    (h : toTree traits .arrays root = .ok t) (hkeeps : t.Keeps policy) :
    toTree traits (.arraysUnder policy) root = .ok t := by
  unfold toTree at h ⊢
  dsimp only at h ⊢
  generalize unwrapRoot traits _ = c at h ⊢
  obtain ⟨g, hg, h⟩ := Result.bind_eq_ok h
  obtain ⟨s, hs, h⟩ := Result.bind_eq_ok h
  obtain rfl : s = t := Except.ok.inj h
  have hstandard : g.toStandard = .ok s := hs
  -- the rules of the clause are those of the tree, so they are left alone
  have hrules : s.rules = rules c :=
    (Node.rules_of_toStandard hstandard).trans (rules_of_toGroup htraits hg)
  rw [Node.Keeps, hrules] at hkeeps
  rw [toGroup_of_keeps htraits hkeeps, hg]
  exact congrArg (· >>= _) hstandard

end
end Clause

/-! ### Writing -/

namespace Writer
variable {α : Type} {w : Writer α}

/-- Without fields and functions of the caller a rule is written as the dialect
writes it. -/
theorem writeRule_congr {policy : NumberPolicy} {dialect : Dialect} {r : Rule}
    (h : ∀ context, w.write (.usualUnder policy dialect) r context =
      w.write (.usual dialect) r context) (path : Path) :
    w.writeRule (.usualUnder policy dialect) path r = w.writeRule (.usual dialect) path r := by
  unfold writeRule
  cases w.canExpress r with
  | false => rfl
  | true =>
    funext bindings
    exact congrFun (h _) bindings

end Writer

/-! ### Rereading under a policy -/

/-- Writes a tree in the dialect of a name and reads what is written, both under
the number policy that a value names, with list values kept as lists. -/
def Query.rereadUnder (numbers : Value) (dialect : String) (t : Node) : Result Node := do
  let options ← FormatOptions.build (.name dialect) [("parse_numbers", .plain numbers)]
  let output ← Query.format options t
  let source ← Query.Source.ofOutput (← options.resolve) t output
  Query.parse source (.text dialect) .defaults
    [("parse_numbers", .plain numbers), ("lists_as_arrays", .plain (.bool true))]

end RuleTree
