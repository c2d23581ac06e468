import RuleTree.Proofs.ConfiguredNames

/-! # Literals on the way to a tree

The literals of a clause, each with the field that it is compared with, are those of the tree that
the clause becomes, in the same order and as the number policy reads them
(`Clause.entries_of_toTree`).  Groups come and go on the way, and so may rules: the two comparisons
that a range is written as become one rule with two literals (`Clause.entries_of_recovered`).  That
needs rules whose comparisons are with one value each (`Rule.IsFlat`).
-/
namespace RuleTree

/-! ### Rules -/

/-- The literals of a rule, each with the field of the rule. -/
def Rule.entries (r : Rule) : List (Value × Value) := r.literals.map fun v => (r.field, v)

/-- The literals of a tree from left to right. -/
def Node.entries (t : Node) : List (Value × Value) := t.rules.flatMap Rule.entries

/-- The literals of a clause from left to right. -/
def Clause.entries (c : Clause) : List (Value × Value) := c.rules.flatMap Rule.entries

/-- The field is named by a text, and a comparison is with one value. -/
structure Rule.IsFlat (r : Rule) : Prop where
  field : ∃ name, r.field = .text name
  value : ∀ op, r.operator? = some op → op.isComparison = true → ∀ items, r.value ≠ .list items

/-- What is no list is read as no list. -/
theorem Value.withNumbers_ne_list {v : Value} (policy : NumberPolicy)
    (h : ∀ items, v ≠ .list items) (items : List Value) :
    v.withNumbers policy ≠ .list items := by
  unfold withNumbers
  split
  · split
    · rename_i n _
      cases n <;> nofun
    · nofun
  · exact h items

namespace Clause

theorem readsNumbers_finishRule (plan : ParsePlan) (r : Rule) :
    readsNumbers (finishRule plan r) = readsNumbers r := by
  unfold finishRule
  dsimp only
  split <;> rfl

theorem readsNumbers_invertRule (r : Rule) : readsNumbers (invertRule r) = readsNumbers r := by
  unfold invertRule
  split
  · rename_i op hop
    have hinverse : ({ r with operator := op.inverse.toValue } : Rule).operator? =
        some op.inverse := Operator.ofValue?_toValue _
    rw [readsNumbers, readsNumbers, hop, hinverse]
    dsimp only
    rw [Operator.isTextMatch_inverse]
    rfl
  · rfl

/-- Where lists are kept, every literal of a rule is read by itself. -/
theorem entries_finishRule {plan : ParsePlan} (hlists : plan.listsAsArrays = true) (r : Rule) :
    (finishRule plan r).entries = r.entries.map (Prod.map id (Value.withNumbers plan.policy)) := by
  have hfield : (finishRule plan r).field = r.field := by
    unfold finishRule
    dsimp only
    split <;> rfl
  have hliterals : (finishRule plan r).literals =
      r.literals.map (Value.withNumbers plan.policy) := by
    rw [Rule.literals, Rule.literals, readsNumbers_finishRule]
    split
    · rename_i hnumbers
      cases hvalue : r.value with
      | list items => simp [finishRule, hvalue, hnumbers, hlists]
      | _ =>
        -- the value that is read is no list either, so it is the literal
        have hread := Value.withNumbers_ne_list plan.policy (v := r.value) (by simp [hvalue])
        rw [hvalue] at hread
        simp only [finishRule, hvalue, hnumbers, if_true, List.map_singleton]
    · rfl
  rw [Rule.entries, Rule.entries, hfield, hliterals, List.map_map, List.map_map]
  rfl

/-- The complement of a rule has its literals. -/
theorem entries_invertRule (r : Rule) : (invertRule r).entries = r.entries := by
  have hsame : (invertRule r).field = r.field ∧ (invertRule r).value = r.value := by
    unfold invertRule
    split <;> exact ⟨rfl, rfl⟩
  rw [Rule.entries, Rule.entries, Rule.literals, Rule.literals, readsNumbers_invertRule, hsame.1,
    hsame.2]

end Clause

/-- The complement of such a rule is one. -/
theorem Rule.IsFlat.invert {r : Rule} (h : r.IsFlat) : (Clause.invertRule r).IsFlat := by
  unfold Clause.invertRule
  split
  · rename_i op hop
    refine ⟨h.field, fun op' hop' hcompares => ?_⟩
    obtain rfl : op.inverse = op' :=
      Option.some.inj ((Operator.ofValue?_toValue _).symm.trans hop')
    refine h.value op hop ?_
    cases op <;> first | rfl | cases hcompares
  · exact h

/-! ### Clauses -/

namespace Clause
variable {traits : SourceTraits} {plan : ParsePlan}

@[simp] theorem entries_rule (r : Rule) : (Clause.rule r).entries = r.entries := by
  rw [entries, rules, List.flatMap_singleton]

@[simp] theorem entries_group (negated : Bool) (head : Clause) (tail : List (Junction × Clause)) :
    (group negated head tail).entries = head.entries ++ tail.flatMap fun e => e.2.entries := by
  rw [entries, rules_group, List.flatMap_append, List.flatMap_assoc]
  rfl

/-- A constant has no literals that are compared with a field. -/
theorem entries_of_isConstant {c : Clause} (h : c.isConstant = true) : c.entries = [] := by
  fun_induction isConstant c with
  | case1 => rfl
  | case2 head ih => simp [ih h]
  | case3 => cases h

/-- A comparison with one value has that literal, unless it is with a field. -/
theorem entries_of_comparison {r : Rule} (h : r.IsFlat) {op : Operator}
    (hop : r.operator? = some op) (hcompares : op.isComparison = true) :
    r.entries = if r.comparesFields then [] else [(r.field, r.value)] := by
  have hvalue := h.value op hop hcompares
  rw [Rule.entries, Rule.literals, readsNumbers_eq hop (Operator.of_isComparison hcompares).2.2.2]
  cases r.comparesFields with
  | true => rfl
  | false =>
    rw [Bool.not_false, if_pos rfl, if_neg Bool.false_ne_true]
    split
    · rename_i items hitems
      exact absurd hitems (hvalue items)
    · rfl

/-- A rule with a list of values has them for literals, unless they are fields. -/
theorem entries_of_range {r : Rule} {op : Operator} (hmulti : op.isMulti = true)
    (hop : r.operator? = some op) {items : List Value} (hitems : r.value = .list items) :
    r.entries = if r.comparesFields then [] else items.map fun v => (r.field, v) := by
  have htext : op.isTextMatch = false := by cases op <;> first | rfl | cases hmulti
  rw [Rule.entries, Rule.literals, readsNumbers_eq hop htext, hitems]
  cases r.comparesFields <;> rfl

/-- A range has the literals of the two comparisons that it is recovered from. -/
theorem entries_of_recovered {negated : Bool} {head : Clause} {tail : List (Junction × Clause)}
    {r : Rule} (h : recovered? traits negated head tail = some r)
    (hflat : ∀ s ∈ (group negated head tail).rules, s.IsFlat) :
    r.entries = (group negated head tail).entries := by
  obtain ⟨low, high, j, lowOp, highOp, op, rfl, rfl, hlow, hone, hhigh, hone', hfield, hsource,
    hrange, hr⟩ := exists_of_recovered? h
  have hboth : low.IsFlat ∧ high.IsFlat := by simpa [rules, turnRules] using hflat
  have hhighField : high.field = low.field := by
    obtain ⟨name, hname⟩ := hboth.1.field
    rw [hname] at hfield ⊢
    exact Value.eq_text_of_equals hfield
  have hhighFields : high.comparesFields = low.comparesFields :=
    (isField_eq_of_equals hsource).symm
  have hop : r.operator? = some op := by
    rw [hr]
    exact Operator.ofValue?_toValue op
  have hitems : r.value = .list [low.value, high.value] := by rw [hr]
  have hsame : r.field = low.field ∧ r.comparesFields = low.comparesFields := by
    rw [hr]
    exact ⟨rfl, rfl⟩
  rw [entries_group, List.flatMap_singleton, entries_rule, entries_rule,
    entries_of_comparison hboth.1 hlow hone, entries_of_comparison hboth.2 hhigh hone',
    entries_of_range (Operator.isMulti_of_isRange hrange) hop hitems, hhighField, hhighFields,
    hsame.1, hsame.2]
  cases low.comparesFields <;> rfl

/-! ### Trees -/

theorem entries_of_toTurns {depth : Nat} {tail : List (Junction × Clause)} {turns : List Node}
    (ih : ∀ e ∈ tail, ∀ m, toMember traits plan.verbatim depth e.2 = .ok m →
      m.entries = e.2.entries)
    (h : toTurns traits plan.verbatim depth tail = .ok turns) :
    turns.flatMap Node.entries = tail.flatMap fun e => e.2.entries := by
  induction tail generalizing turns with
  | nil =>
    obtain rfl := Except.ok.inj h
    rfl
  | cons e tail iht =>
    obtain ⟨he, htail⟩ := List.forall_mem_cons.mp ih
    rw [toTurns] at h
    obtain ⟨m, hm, h⟩ := Result.bind_eq_ok h
    obtain ⟨rest, hrest, h⟩ := Result.bind_eq_ok h
    obtain rfl := Except.ok.inj h
    rw [List.flatMap_cons, List.flatMap_cons, List.flatMap_cons, iht htail hrest, he m hm]
    rfl

theorem entries_interleaved (flags : GroupFlags) (items : List Node) :
    (Node.interleaved flags items).entries = items.flatMap Node.entries := by
  rw [Node.entries, Node.rules_interleaved, List.flatMap_assoc]
  rfl

/-- A member has the literals of its clause. -/
theorem entries_of_toMember {c : Clause} (hflat : ∀ r ∈ c.rules, r.IsFlat) {depth : Nat}
    {m : Node} (h : toMember traits plan.verbatim depth c = .ok m) : m.entries = c.entries := by
  induction c using induct generalizing depth m with
  | rule r =>
    rw [toMember, finish_none, finishRule_verbatim] at h
    obtain rfl := Except.ok.inj h
    rw [Node.entries, Node.rules_rule, List.flatMap_singleton, entries_rule]
  | constant => cases h
  | empty negated =>
    rw [toMember] at h
    obtain ⟨_, -, h⟩ := Result.bind_eq_ok h
    obtain rfl := Except.ok.inj h
    rfl
  | group negated head tail ihead itail =>
    rw [toMember] at h
    split at h
    · rename_i r hrange
      rw [finish_none, finishRule_verbatim] at h
      obtain rfl := Except.ok.inj h
      rw [Node.entries, Node.rules_rule, List.flatMap_singleton, entries_of_recovered hrange hflat]
    · rw [rules_group] at hflat
      obtain ⟨hhead, htail⟩ := List.forall_mem_append.mp hflat
      obtain ⟨_, -, h⟩ := Result.bind_eq_ok h
      obtain ⟨first, hfirst, h⟩ := Result.bind_eq_ok h
      obtain ⟨turns, hturns, h⟩ := Result.bind_eq_ok h
      obtain rfl := Except.ok.inj h
      rw [entries_interleaved, List.flatMap_cons, entries_group, ihead hhead hfirst,
        entries_of_toTurns (fun e he _ hm =>
          itail e he (List.forall_mem_flatMap.mp htail e he) hm) hturns]

theorem entries_of_toGroup {c : Clause} (hflat : ∀ r ∈ c.rules, r.IsFlat) {g : Node}
    (h : toGroup traits plan.verbatim c = .ok g) : g.entries = c.entries := by
  unfold toGroup at h
  split at h
  · obtain ⟨_, -, h⟩ := Result.bind_eq_ok h
    obtain ⟨first, hfirst, h⟩ := Result.bind_eq_ok h
    obtain ⟨turns, hturns, h⟩ := Result.bind_eq_ok h
    obtain rfl := Except.ok.inj h
    rw [rules_group] at hflat
    obtain ⟨hhead, htail⟩ := List.forall_mem_append.mp hflat
    rw [entries_interleaved, List.flatMap_cons, entries_group, entries_of_toMember hhead hfirst,
      entries_of_toTurns (fun e he _ hm =>
        entries_of_toMember (List.forall_mem_flatMap.mp htail e he) hm) hturns]
  · obtain ⟨_, -, h⟩ := Result.bind_eq_ok h
    obtain rfl := Except.ok.inj h
    rfl
  · obtain ⟨_, -, h⟩ := Result.bind_eq_ok h
    obtain ⟨m, hm, h⟩ := Result.bind_eq_ok h
    obtain rfl := Except.ok.inj h
    rw [entries_interleaved, List.flatMap_singleton, entries_of_toMember hflat hm]

/-- What the root is opened to has its rules, but for a constant. -/
theorem entries_rootOf (traits : SourceTraits) (c : Clause) :
    (rootOf traits (some c)).entries = c.entries := by
  rw [rootOf, entries, rules_unwrapRoot]
  split
  · rename_i hconstant
    exact (entries_of_isConstant hconstant).symm
  · rfl

/-- **Literals of a tree.**  Where lists are kept, the tree of a clause has its literals, each with
its field and as the number policy reads it. -/
theorem entries_of_toTree (hlists : plan.listsAsArrays = true) {c : Clause}
    (hflat : ∀ r ∈ c.rules, r.IsFlat) {t : Node} (h : toTree traits plan (some c) = .ok t) :
    t.entries = c.entries.map (Prod.map id (Value.withNumbers plan.policy)) := by
  rw [toTree_eq, toGroup_eq_map] at h
  obtain ⟨group, hgroup, h⟩ := Result.bind_eq_ok h
  obtain ⟨tree, htree, h⟩ := Result.bind_eq_ok h
  obtain rfl := eq_of_checked h
  obtain ⟨source, hsource, rfl⟩ := Result.map_eq_ok hgroup
  have hroot : ∀ r ∈ (rootOf traits (some c)).rules, r.IsFlat := by
    rw [rootOf, rules_unwrapRoot]
    split
    · simp [rules]
    · exact hflat
  rw [← entries_rootOf traits, ← entries_of_toGroup hroot hsource, Node.entries,
    rules_of_shaped htree, Node.rules_mapRules, List.flatMap_map, Node.entries, List.map_flatMap]
  exact List.flatMap_congr fun r _ => entries_finishRule hlists r

end Clause
end RuleTree
