import RuleTree.Proofs.FieldNames
import RuleTree.Proofs.Incomplete

/-! # Names that are configured

Rules whose fields are all configured, and that name other fields so that the names can be
stored (`Rule.Within`), remain such on the way from a clause to a tree: as the complement of
a rule (`Rule.Within.invert`), and as the range that two comparisons are taken for
(`Rule.Within.of_recovered`).  So a clause of such rules becomes a tree of such rules
(`Clause.forall_rules_of_toTree`), which is the tree that it becomes with configured fields
(`Query.parse_withFields_of_within`).
-/
namespace RuleTree

/-! ### Rules -/

/-- A name that stays what it is where it is stored, alone or among others. -/
def Value.IsStorable : Value → Prop
  | .text s => s ≠ "" ∧ Text.trim s = s ∧ ',' ∉ s.toList ∧ s.toList.getLast? ≠ some '\\'
  | _ => False

namespace Value

theorem IsStorable.exists_text {v : Value} (h : v.IsStorable) : ∃ s, v = .text s := by
  cases v with
  | text s => exact ⟨s, rfl⟩
  | _ => cases h

theorem exists_texts_of_isStorable {vs : List Value} (h : ∀ v ∈ vs, v.IsStorable) :
    ∃ ss : List String, vs = ss.map .text := by
  induction vs with
  | nil => exact ⟨[], rfl⟩
  | cons v vs ih =>
    obtain ⟨hv, hvs⟩ := List.forall_mem_cons.mp h
    obtain ⟨s, rfl⟩ := hv.exists_text
    obtain ⟨ss, rfl⟩ := ih hvs
    exact ⟨s :: ss, rfl⟩

/-- A text equals itself alone. -/
theorem eq_text_of_equals {s : String} {v : Value} (h : (Value.text s).equals v = true) :
    v = .text s := by
  cases v <;> simp_all [equals, scalarEquals, asInt?]

end Value

/-- A comparison takes one value. -/
theorem Operator.isMulti_of_isComparison {op : Operator} (h : op.isComparison = true) :
    op.isMulti = false := by
  obtain ⟨-, hmember, hrange, -⟩ := of_isComparison h
  rw [isMulti, hmember, hrange, Bool.or_self]

namespace Rule
variable {table : FieldTable} {r : Rule}

/-- Every field that the rule is about is configured, and the other ones have names that can
be stored.  Several others are named in a list, where the operator takes several values. -/
structure Within (table : FieldTable) (r : Rule) : Prop where
  field : ∃ name, r.field = .text name ∧ table.Has (.text name)
  others : r.comparesFields = true →
    (r.value.IsStorable ∧ table.Has r.value) ∨
      (∃ op, r.operator? = some op ∧ op.isMulti = true) ∧
        ∃ items, r.value = .list items ∧ ∀ v ∈ items, v.IsStorable ∧ table.Has v

namespace Within

/-- The fields of the rule are all configured. -/
theorem has_of_mem_mentions (h : r.Within table) : ∀ name ∈ r.mentions, table.Has name := by
  obtain ⟨field, hfield, hhas⟩ := h.field
  rw [mentions, List.forall_mem_cons, Rule.others]
  refine ⟨hfield ▸ hhas, fun v hv => ?_⟩
  split at hv
  · rename_i hfields
    rcases h.others hfields with ⟨hname, hother⟩ | ⟨-, items, hitems, hothers⟩
    · obtain ⟨s, hs⟩ := hname.exists_text
      rw [hs] at hv hother
      exact List.mem_singleton.mp hv ▸ hother
    · rw [hitems] at hv
      exact (hothers v hv).2
  · cases hv

/-- The names in the rule stay what they are. -/
theorem keepsNames (h : r.Within table) (asLists : Bool) : r.KeepsNames asLists := by
  cases hfields : r.comparesFields with
  | false => exact .literal hfields
  | true =>
    rcases h.others hfields with ⟨hname, -⟩ | ⟨-, items, hitems, hothers⟩
    · obtain ⟨s, hs⟩ := hname.exists_text
      rw [hs] at hname
      exact .one hs ⟨hname.1, hname.2.1⟩ hname.2.2.1
    · obtain ⟨names, rfl⟩ := Value.exists_texts_of_isStorable fun v hv => (hothers v hv).1
      have hstored (s : String) (hs : s ∈ names) : (Value.text s).IsStorable :=
        (hothers _ (List.mem_map_of_mem hs)).1
      exact .several hitems (fun s hs => ⟨(hstored s hs).1, (hstored s hs).2.1⟩)
        fun _ s hs => (hstored s (List.dropLast_subset names hs)).2.2.2

/-- The complement of a rule is about the same fields. -/
theorem invert (h : r.Within table) : (Clause.invertRule r).Within table := by
  rw [Clause.invertRule]
  split
  · rename_i op hop
    refine ⟨h.field, fun hfields => (h.others hfields).imp_right ?_⟩
    rintro ⟨⟨op', hop', hmulti⟩, hitems⟩
    obtain rfl : op = op' := Option.some.inj (hop.symm.trans hop')
    refine ⟨⟨op.inverse, Operator.ofValue?_toValue _, ?_⟩, hitems⟩
    rw [← hmulti]
    cases op <;> rfl
  · exact h

/-- A rule with a single value that is about another field has its name for a value. -/
theorem single (h : r.Within table) {op : Operator} (hop : r.operator? = some op)
    (hsingle : op.isMulti = false) (hfields : r.comparesFields = true) :
    r.value.IsStorable ∧ table.Has r.value := by
  refine (h.others hfields).resolve_right ?_
  rintro ⟨⟨op', hop', hmulti⟩, -⟩
  obtain rfl : op = op' := Option.some.inj (hop.symm.trans hop')
  rw [hmulti] at hsingle
  cases hsingle

end Within
end Rule

/-! ### Clauses -/

/-- The range that two such comparisons are taken for is such a rule. -/
theorem Rule.Within.of_recovered {table : FieldTable} {traits : SourceTraits} {negated : Bool}
    {head : Clause} {tail : List (Junction × Clause)} {r : Rule}
    (h : Clause.recovered? traits negated head tail = some r)
    (hrules : ∀ s ∈ (Clause.group negated head tail).rules, s.Within table) : r.Within table := by
  obtain ⟨low, high, j, lowOp, highOp, op, rfl, rfl, hlow, hone, hhigh, hone', -, hsource, hrange,
    rfl⟩ := Clause.exists_of_recovered? h
  have hwithin : low.Within table ∧ high.Within table := by
    simpa [Clause.rules, Clause.turnRules] using hrules
  have hsame : low.comparesFields = high.comparesFields := Clause.isField_eq_of_equals hsource
  refine ⟨hwithin.1.field, fun hfields => .inr ⟨⟨op, Operator.ofValue?_toValue op,
    Operator.isMulti_of_isRange hrange⟩, _,
    rfl, List.forall_mem_cons.mpr ⟨?_, List.forall_mem_singleton.mpr ?_⟩⟩⟩
  · exact hwithin.1.single hlow (Operator.isMulti_of_isComparison hone) hfields
  · exact hwithin.2.single hhigh (Operator.isMulti_of_isComparison hone') (hsame ▸ hfields)

namespace Clause
variable {P : Rule → Prop} {traits : SourceTraits}

/-- The clause of a rule is of the rules that the rule is about: the rule, or the two
comparisons of a range. -/
theorem within_of_builds {table : FieldTable} {c : Clause} {r : Rule}
    (h : Builds traits c (.rule r)) (hr : r.Within table) : ∀ s ∈ c.rules, s.Within table := by
  obtain ⟨m, hm, -, hnode⟩ := h.member 0
  -- a sequence becomes a group, and no rule
  have hsequence {flags : GroupFlags} {items : List Node} :
      (Node.interleaved flags items).standardMember ≠ .ok (.rule r) := by
    intro hrule
    rcases Node.standardMember_interleaved hrule with ⟨-, hgroup⟩ | ⟨_, _, _, _, -, -, -, hgroup⟩
    · cases hgroup
    · obtain ⟨_, _, hgroup, -⟩ := Node.exists_group_of_ofTurns hgroup
      cases hgroup
  cases c with
  | rule s =>
    obtain rfl := Node.rule.inj h.eq_rule
    rw [rules]
    exact List.forall_mem_singleton.mpr hr
  | constant comparison => cases hm
  | empty negated =>
    obtain rfl := Except.ok.inj hm
    exact absurd hnode hsequence
  | group negated head tail =>
    cases hrecovered : recovered? traits negated head tail with
    | none =>
      rw [toMember_group hrecovered] at hm
      obtain ⟨_, -, hm⟩ := Result.bind_eq_ok hm
      obtain ⟨_, -, hm⟩ := Result.bind_eq_ok hm
      obtain rfl := Except.ok.inj hm
      exact absurd hnode hsequence
    | some s =>
      have hrange : toMember traits .arrays 0 (.group negated head tail) = .ok (.rule s) := by
        rw [toMember, hrecovered]
        dsimp only
        rw [finish_none, finishRule_arrays]
      obtain rfl : .rule s = m := Except.ok.inj (hrange.symm.trans hm)
      obtain rfl : s = r := Node.rule.inj (Except.ok.inj hnode)
      obtain ⟨low, high, j, lowOp, highOp, op, rfl, rfl, hlow, hone, hhigh, hone', hfield,
        hsource, -, rfl⟩ := exists_of_recovered? hrecovered
      obtain ⟨name, hname, hhas⟩ := hr.field
      have hname : low.field = .text name := hname
      have hsame : low.comparesFields = high.comparesFields := isField_eq_of_equals hsource
      have hitems (hfields : low.comparesFields = true) :
          ∀ v ∈ [low.value, high.value], v.IsStorable ∧ table.Has v := by
        rcases hr.others hfields with ⟨hlist, -⟩ | ⟨-, items, hvalue, hall⟩
        · cases hlist
        · exact Value.list.inj hvalue ▸ hall
      rw [hname] at hfield
      have hlowWithin : low.Within table := ⟨⟨name, hname, hhas⟩, fun hfields =>
        .inl (hitems hfields _ List.mem_cons_self)⟩
      have hhighWithin : high.Within table :=
        ⟨⟨name, Value.eq_text_of_equals hfield, hhas⟩, fun hfields =>
          .inl (hitems (hsame.trans hfields) _ (List.mem_cons_of_mem _ List.mem_cons_self))⟩
      simpa [rules, turnRules] using ⟨hlowWithin, hhighWithin⟩

/-! ### Trees -/

theorem forall_rules_join {j : Junction} {negated : Bool} {cs : List Clause} :
    (∀ r ∈ (join j negated cs).rules, P r) ↔ ∀ c ∈ cs, ∀ r ∈ c.rules, P r := by
  cases cs with
  | nil => simp [join, rules]
  | cons head cs =>
    rw [join, rules_group, List.forall_mem_append, List.forall_mem_cons, List.flatMap_map,
      List.forall_mem_flatMap]

/-- A clause of rules of a kind, which has a complement. -/
structure IsOf (P : Rule → Prop) (c : Clause) : Prop where
  rules : ∀ r ∈ c.rules, P r
  complement : ∃ c', c.negate = .ok c'

/-- A group of such clauses is one. -/
theorem IsOf.join {cs : List Clause} (h : ∀ c ∈ cs, c.IsOf P) (j : Junction) (negated : Bool) :
    (Clause.join j negated cs).IsOf P := by
  refine ⟨forall_rules_join.mpr fun c hc => (h c hc).rules, ?_⟩
  cases cs <;> exact ⟨_, rfl⟩

/-- The complement has the rules inverted. -/
theorem IsOf.negate (hinvert : ∀ r, P r → P (invertRule r)) {c : Clause} (h : c.IsOf P) :
    ∃ c', c.negate = .ok c' ∧ c'.IsOf P := by
  obtain ⟨c', hnegate⟩ := h.complement
  refine ⟨c', hnegate, ?_⟩
  have hrules := h.rules
  cases c with
  | rule r =>
    obtain rfl := Except.ok.inj hnegate
    rw [Clause.rules] at hrules
    refine ⟨?_, _, rfl⟩
    rw [Clause.rules]
    exact List.forall_mem_singleton.mpr (hinvert r (List.forall_mem_singleton.mp hrules))
  | constant comparison => cases hnegate
  | empty negated =>
    obtain rfl := Except.ok.inj hnegate
    exact ⟨hrules, _, rfl⟩
  | group negated head tail =>
    obtain rfl := Except.ok.inj hnegate
    exact ⟨hrules, _, rfl⟩

/-- What becomes a rule is no constant. -/
theorem Builds.exists_negate {c : Clause} {node : Node} (h : Builds traits c node) :
    ∃ c', c.negate = .ok c' := by
  cases c with
  | constant comparison =>
    obtain ⟨m, hm, -⟩ := h.member 0
    cases hm
  | _ => exact ⟨_, rfl⟩

section
variable (hrecovered : ∀ {negated head tail r}, recovered? traits negated head tail = some r →
  (∀ s ∈ (Clause.group negated head tail).rules, P s) → P r)
include hrecovered

omit hrecovered in
theorem forall_rules_of_toTurns {depth : Nat} {tail : List (Junction × Clause)}
    {turns : List Node} (ih : ∀ e ∈ tail, ∀ m, toMember traits .arrays depth e.2 = .ok m →
      ∀ r ∈ m.rules, P r) (h : toTurns traits .arrays depth tail = .ok turns) :
    ∀ r ∈ turns.flatMap Node.rules, P r := by
  induction tail generalizing turns with
  | nil =>
    obtain rfl := Except.ok.inj h
    simp
  | cons e tail iht =>
    obtain ⟨he, htail⟩ := List.forall_mem_cons.mp ih
    rw [toTurns] at h
    obtain ⟨m, hm, h⟩ := Result.bind_eq_ok h
    obtain ⟨rest, hrest, h⟩ := Result.bind_eq_ok h
    obtain rfl := Except.ok.inj h
    rw [List.flatMap_cons, List.flatMap_cons, Node.rules_bare, List.nil_append]
    exact List.forall_mem_append.mpr ⟨he m hm, iht htail hrest⟩

/-- A member has rules such as its clause has. -/
theorem forall_rules_of_toMember {c : Clause} (hc : ∀ r ∈ c.rules, P r) {depth : Nat} {m : Node}
    (h : toMember traits .arrays depth c = .ok m) : ∀ r ∈ m.rules, P r := by
  induction c using induct generalizing depth m with
  | rule r =>
    rw [toMember, finish_none, finishRule_arrays] at h
    obtain rfl := Except.ok.inj h
    rwa [Node.rules_rule]
  | constant => cases h
  | empty =>
    obtain rfl := Except.ok.inj h
    rw [Node.rules_interleaved]
    simp
  | group negated head tail ihead itail =>
    cases hrange : recovered? traits negated head tail with
    | some r =>
      rw [toMember, hrange] at h
      dsimp only at h
      rw [finish_none, finishRule_arrays] at h
      obtain rfl := Except.ok.inj h
      rw [Node.rules_rule]
      exact List.forall_mem_singleton.mpr (hrecovered hrange hc)
    | none =>
      rw [rules_group] at hc
      obtain ⟨hhead, htail⟩ := List.forall_mem_append.mp hc
      rw [toMember_group hrange] at h
      obtain ⟨first, hfirst, h⟩ := Result.bind_eq_ok h
      obtain ⟨turns, hturns, h⟩ := Result.bind_eq_ok h
      obtain rfl := Except.ok.inj h
      rw [Node.rules_interleaved, List.flatMap_cons]
      refine List.forall_mem_append.mpr ⟨ihead hhead hfirst, ?_⟩
      exact forall_rules_of_toTurns (fun e he _ hm =>
        itail e he (List.forall_mem_flatMap.mp htail e he) hm) hturns

theorem forall_rules_of_toGroup {c : Clause} (hc : ∀ r ∈ c.rules, P r) {g : Node}
    (h : toGroup traits .arrays c = .ok g) : ∀ r ∈ g.rules, P r := by
  unfold toGroup at h
  split at h
  · obtain ⟨_, -, h⟩ := Result.bind_eq_ok h
    obtain ⟨first, hfirst, h⟩ := Result.bind_eq_ok h
    obtain ⟨turns, hturns, h⟩ := Result.bind_eq_ok h
    obtain rfl := Except.ok.inj h
    rw [rules_group] at hc
    obtain ⟨hhead, htail⟩ := List.forall_mem_append.mp hc
    rw [Node.rules_interleaved, List.flatMap_cons]
    refine List.forall_mem_append.mpr ⟨forall_rules_of_toMember hrecovered hhead hfirst, ?_⟩
    exact forall_rules_of_toTurns (fun e he _ hm => forall_rules_of_toMember hrecovered
      (List.forall_mem_flatMap.mp htail e he) hm) hturns
  · obtain ⟨_, -, h⟩ := Result.bind_eq_ok h
    obtain rfl := Except.ok.inj h
    rw [Node.rules_interleaved]
    simp
  · obtain ⟨_, -, h⟩ := Result.bind_eq_ok h
    obtain ⟨m, hm, h⟩ := Result.bind_eq_ok h
    obtain rfl := Except.ok.inj h
    rw [Node.rules_interleaved, List.flatMap_singleton]
    exact forall_rules_of_toMember hrecovered hc hm

omit hrecovered in
theorem rules_unwrapRoot (c : Clause) : (unwrapRoot traits c).rules = c.rules := by
  unfold unwrapRoot
  split <;> first | rfl | split <;> simp [rules, turnRules]

/-- **Rules of a tree.**  What holds of the rules of a clause holds of those of the tree, if
it holds of a range with the comparisons that it is recovered from. -/
theorem forall_rules_of_toTree {root : Option Clause} (hroot : ∀ c ∈ root, ∀ r ∈ c.rules, P r)
    {t : Node} (h : toTree traits .arrays root = .ok t) : ∀ r ∈ t.rules, P r := by
  obtain ⟨group, hgroup, h⟩ := Result.bind_eq_ok h
  obtain ⟨tree, htree, h⟩ := Result.bind_eq_ok h
  obtain rfl : tree = t := Except.ok.inj h
  have hstandard : group.toStandard = .ok tree := htree
  rw [Node.rules_of_toStandard hstandard]
  refine forall_rules_of_toGroup hrecovered ?_ hgroup
  rw [rules_unwrapRoot]
  cases root with
  | none => simp [rules]
  | some c =>
    dsimp only
    split
    · simp [rules]
    · exact hroot c rfl

end
end Clause

/-! ### Queries -/

/-- **Configured fields.**  A source whose tree, with list values kept as lists, has rules
about configured fields alone is read as the same tree with configured fields. -/
theorem Query.parse_withFields_of_within {source : Source} {dialect : Value} {back whole : Node}
    (hback : parse source dialect .defaults [] = .ok back)
    (hwhole : parse source dialect .defaults [("lists_as_arrays", .plain (.bool true))] =
      .ok whole)
    {fields : FieldsInput} {table : FieldTable} (htable : FieldTable.ofInput fields = .ok table)
    (hsome : table ≠ []) (hwithin : ∀ r ∈ whole.rules, r.Within table) :
    parse source dialect .defaults [("fields", .fields fields)] = .ok back := by
  obtain ⟨whole', hwhole', hchecked⟩ :=
    parse_withFields (o := {}) rfl rfl hback htable hsome
  obtain rfl : whole = whole' := Except.ok.inj (hwhole.symm.trans hwhole')
  rcases hchecked fun r hr => (hwithin r hr).keepsNames _ with
    ⟨hok, -⟩ | ⟨r, hr, name, hname, hnone, -⟩
  · exact hok
  · obtain ⟨f, hf⟩ := (hwithin r hr).has_of_mem_mentions name hname
    rw [hf] at hnone
    cases hnone

end RuleTree
