import RuleTree.Proofs.Canonical
import RuleTree.Proofs.Interchange
import RuleTree.Proofs.JsonText
import RuleTree.Proofs.Runs

/-! # Trees exchanged as texts in JSON

A standard tree that is written as JSON, read by a reader of JSON, and read as a tree
is the same tree, and without ids it is the tree without them
(`Query.ofValue_read_json`).  Its names are texts, its ids null or texts, and its
values those that JSON has (`Node.IsPortable`); nothing is asked of what the names
are, so that `rules` may be the name of a field and a combinator that of an operator.
-/
namespace RuleTree

/-! ### Trees that JSON has -/

/-- An id that can be exchanged. -/
def Value.IsId (v : Value) : Prop := v = .null ∨ ∃ s, v = .text s

theorem Value.IsId.isData {v : Value} (h : v.IsId) : Json.IsData v := by
  rcases h with rfl | ⟨s, rfl⟩
  · exact .null
  · exact .text s

/-- A rule that can be exchanged. -/
structure Rule.IsPortable (r : Rule) : Prop where
  field : ∃ s, r.field = .text s
  operator : ∃ s, r.operator = .text s
  value : Json.IsData r.value
  source : r.source = .value ∨ r.source = .field
  id : r.id.IsId

/-- A standard tree of rules that can be exchanged. -/
inductive Node.IsPortable : Node → Prop where
  | rule {r : Rule} : r.IsPortable → IsPortable (.rule r)
  | group {combinator : String} {flags : GroupFlags} {children : List Node} : flags.id.IsId →
      (∀ child ∈ children, IsPortable child) → IsPortable (.group (.text combinator) flags children)

namespace Node
variable {t : Node}

theorem IsPortable.isStandard (h : t.IsPortable) : t.IsStandard := by
  induction h with
  | rule => exact .rule _
  | group _ _ ih => exact .group ih

theorem IsPortable.source_of_mem (h : t.IsPortable) :
    ∀ r ∈ t.rules, r.source = .value ∨ r.source = .field := by
  induction h with
  | rule hr => simpa using hr.source
  | group _ _ ih =>
    intro r hr
    rw [rules_group] at hr
    obtain ⟨child, hchild, hr⟩ := List.mem_flatMap.mp hr
    exact ih child hchild r hr

theorem IsStandard.not_hasUnmarked (h : t.IsStandard) : ¬t.HasUnmarked := by
  induction h with
  | rule r => exact not_hasUnmarked_rule r
  | group _ ih => exact not_hasUnmarked_group.mpr ih

/-- A tree can be exchanged without its ids where it can with them. -/
theorem IsPortable.withoutIds (h : t.IsPortable) : t.withoutIds.IsPortable := by
  induction h with
  | rule hr => exact .rule { hr with id := .inl rfl }
  | group _ _ ih =>
    rw [withoutIds_group]
    exact .group (.inl rfl) (List.forall_mem_map.mpr ih)

/-! ### Ids left out -/

theorem ruleEntries_withoutId (r : Rule) :
    ruleEntries true r.withoutId = ruleEntries false r := by
  have hid (id : Value) : idEntry false id = [] := by cases id <;> rfl
  rw [ruleEntries, ruleEntries, hid]
  rfl

theorem groupEntries_withoutId (combinator : List (String × Value)) (flags : GroupFlags) :
    groupEntries true combinator flags.withoutId = groupEntries false combinator flags := by
  have hid (id : Value) : idEntry false id = [] := by cases id <;> rfl
  rw [groupEntries, groupEntries, hid]
  rfl

theorem childValues_congr {nodes : List Node} {f : Node → Node} {a b : Bool}
    (h : ∀ node ∈ nodes, toValue a (f node) = toValue b node) :
    childValues a (nodes.map f) = childValues b nodes := by
  induction nodes with
  | nil => rfl
  | cons node nodes ih =>
    obtain ⟨hnode, hrest⟩ := List.forall_mem_cons.mp h
    rw [List.map_cons, childValues, childValues, hnode, ih hrest]

/-- Leaving ids out is writing the tree without them. -/
theorem toValue_withoutIds (h : t.IsStandard) : toValue true t.withoutIds = toValue false t := by
  induction h with
  | rule r =>
    rw [Node.withoutIds, toValue, toValue, ruleEntries_withoutId]
  | group _ ih =>
    rw [withoutIds_group, toValue, toValue, childValues_congr ih, groupEntries_withoutId]

/-! ### What is written -/

theorem nodup_keys_ruleEntries (r : Rule) : ((ruleEntries true r).map Prod.fst).Nodup := by
  rw [ruleEntries]
  rcases idEntry_true r.id with ⟨-, hid⟩ | hid <;> rw [hid] <;>
    cases r.comparesFields <;> cases r.disabled <;> simp [flagEntry]

theorem nodup_keys_groupMap (combinator : Option Value) (flags : GroupFlags)
    (rules : List Value) : ((groupMap combinator flags rules).map Prod.fst).Nodup := by
  rw [groupMap, groupEntries]
  rcases idEntry_true flags.id with ⟨-, hid⟩ | hid <;> rw [hid] <;>
    cases combinator <;> cases flags.negated <;> cases flags.disabled <;> simp [flagEntry]

/-- The entries of an id are data. -/
theorem isData_idEntry {id : Value} (h : id.IsId) : ∀ e ∈ idEntry true id, Json.IsData e.2 := by
  rcases idEntry_true id with ⟨-, hid⟩ | hid <;> rw [hid]
  · simp
  · simpa using h.isData

theorem isData_flagEntry (key : String) (set : Bool) :
    ∀ e ∈ flagEntry key set, Json.IsData e.2 := by
  cases set
  · simp [flagEntry]
  · simpa [flagEntry] using Json.IsData.bool true

theorem isData_rule {r : Rule} (h : r.IsPortable) : Json.IsData (.map (ruleEntries true r)) := by
  refine .map (nodup_keys_ruleEntries r) ?_
  obtain ⟨field, hfield⟩ := h.field
  obtain ⟨operator, hoperator⟩ := h.operator
  simp only [ruleEntries, List.forall_mem_append, List.forall_mem_cons, hfield, hoperator]
  refine ⟨⟨⟨isData_idEntry h.id, .text field, .text operator, h.value, by simp⟩, ?_⟩,
    isData_flagEntry "disabled" r.disabled⟩
  split
  · simpa using Json.IsData.text "field"
  · simp

theorem isData_group {combinator : String} {flags : GroupFlags} {rules : List Value}
    (hid : flags.id.IsId) (hrules : ∀ v ∈ rules, Json.IsData v) :
    Json.IsData (.map (groupMap (some (.text combinator)) flags rules)) := by
  refine .map (nodup_keys_groupMap _ _ _) ?_
  simp only [groupMap, groupEntries, Option.map_some, Option.toList_some, List.forall_mem_append,
    List.forall_mem_cons]
  exact ⟨⟨⟨⟨isData_idEntry hid, .text combinator, by simp⟩, isData_flagEntry "not" flags.negated⟩,
    isData_flagEntry "disabled" flags.disabled⟩, .list hrules, by simp⟩

theorem isData_childValues {children : List Node} {vs : List Value}
    (h : ∀ child ∈ children, ∀ v, toValue true child = .ok v → Json.IsData v)
    (hvs : childValues true children = .ok vs) : ∀ v ∈ vs, Json.IsData v := by
  induction children generalizing vs with
  | nil =>
    rw [childValues] at hvs
    cases hvs
    simp
  | cons child children ih =>
    obtain ⟨hchild, hrest⟩ := List.forall_mem_cons.mp h
    rw [childValues] at hvs
    obtain ⟨v, hv, hvs⟩ := Result.bind_eq_ok hvs
    obtain ⟨rest, hrest', hvs⟩ := Result.bind_eq_ok hvs
    cases hvs
    exact List.forall_mem_cons.mpr ⟨hchild v hv, ih hrest hrest'⟩

/-- A tree that can be exchanged is written as data. -/
theorem IsPortable.isData (h : t.IsPortable) {v : Value} (hv : t.toValue true = .ok v) :
    Json.IsData v := by
  induction h generalizing v with
  | rule hr =>
    rw [toValue] at hv
    cases hv
    exact isData_rule hr
  | group hid _ ih =>
    rw [toValue] at hv
    obtain ⟨vs, hvs, hv⟩ := Result.bind_eq_ok hv
    cases hv
    exact isData_group hid (isData_childValues (fun child hchild v hv => ih child hchild hv) hvs)

/-- The lines of a tree that can be exchanged are read as what the tree is written as,
and that is read as the tree. -/
theorem IsPortable.exists_read (h : t.IsPortable) :
    ∃ v, t.toValue true = .ok v ∧ Json.read (Json.pretty v).toList = .ok v ∧ ofValue v = .ok t := by
  obtain ⟨v, hv⟩ := exists_exchanges h.isStandard.isTree h.source_of_mem
  exact ⟨v, hv.written, Json.read_pretty (h.isData hv.written),
    hv.read.mpr h.isStandard.not_hasUnmarked⟩

end Node

namespace Query

/-- **JSON texts.**  A standard tree that can be exchanged is written as a text in JSON
whose value is read as the tree, ids included; the text without ids is that of the tree
without them. -/
theorem ofValue_read_json {t : Node} (h : t.IsPortable) :
    (∃ s v, (FormatOptions.build (.name "json") [] >>= (format · t)) = .ok (.value (.text s)) ∧
      Json.read s.toList = .ok v ∧ Node.ofValue v = .ok t) ∧
    ∃ s v, (FormatOptions.build (.name "json_without_ids") [] >>= (format · t)) =
        .ok (.value (.text s)) ∧
      Json.read s.toList = .ok v ∧ Node.ofValue v = .ok t.withoutIds := by
  constructor
  · obtain ⟨v, hwritten, hread, hback⟩ := h.exists_read
    refine ⟨Json.pretty v, v, ?_, hread, hback⟩
    have hformat : (FormatOptions.build (.name "json") [] >>= (format · t)) = (do
        let tree ← ofInput t
        return .value (.text (Json.pretty (← tree.toValue true)))) := rfl
    rw [hformat, ofInput_of_isTree h.isStandard.isTree, Result.ok_bind, hwritten]
    rfl
  · obtain ⟨v, hwritten, hread, hback⟩ := h.withoutIds.exists_read
    refine ⟨Json.pretty v, v, ?_, hread, hback⟩
    have hformat : (FormatOptions.build (.name "json_without_ids") [] >>= (format · t)) = (do
        let tree ← ofInput t
        return .value (.text (Json.pretty (← tree.toValue false)))) := rfl
    rw [hformat, ofInput_of_isTree h.isStandard.isTree, Result.ok_bind,
      ← Node.toValue_withoutIds h.isStandard, hwritten]
    rfl

/-- A tree with what is hard to exchange: an empty group among the children, names that
are keys of maps, characters that are escaped, one by two code units, empty lists and
maps inside others, and an integer of more than 64 bits. -/
def portableSpecimen : Node :=
  .group (.text "rules") { negated := true, id := .text "root \u00e9" }
    [.rule
      { field := .text "rules"
        operator := .text "combinator"
        value := .map [("", .list [.list [], .map [], .null, .bool false]),
          ("rules", .list [.int (-36893488147419103232), .int 0])]
        source := .field
        disabled := true
        id := .text "" },
      .group (.text "") { disabled := true } [],
      .rule
        { field := .text ""
          operator := .text "="
          value := .text "\"\\ \n\x7f\u2028😀" }]

theorem ofValue_read_json_specimen : portableSpecimen.IsPortable ∧
    (∃ s v, (FormatOptions.build (.name "json") [] >>= (format · portableSpecimen)) =
        .ok (.value (.text s)) ∧
      Json.read s.toList = .ok v ∧ Node.ofValue v = .ok portableSpecimen) ∧
    ∃ s v, (FormatOptions.build (.name "json_without_ids") [] >>= (format · portableSpecimen)) =
        .ok (.value (.text s)) ∧
      Json.read s.toList = .ok v ∧ Node.ofValue v = .ok portableSpecimen.withoutIds := by
  have hpair : Json.IsData (.map [("", .list [.list [], .map [], .null, .bool false]),
      ("rules", .list [.int (-36893488147419103232), .int 0])]) := by
    refine .map (by decide) ?_
    simp only [List.forall_mem_cons, List.not_mem_nil, false_imp_iff, implies_true, and_true]
    refine ⟨.list ?_, .list ?_⟩
    · simp only [List.forall_mem_cons, List.not_mem_nil, false_imp_iff, implies_true, and_true]
      exact ⟨.list (by simp), .map (by simp) (by simp), .null, .bool false⟩
    · simp only [List.forall_mem_cons, List.not_mem_nil, false_imp_iff, implies_true, and_true]
      exact ⟨.int _, .int _⟩
  have hportable : portableSpecimen.IsPortable := by
    refine .group (.inr ⟨_, rfl⟩) ?_
    simp only [List.forall_mem_cons, List.not_mem_nil, false_imp_iff, implies_true, and_true]
    refine ⟨.rule ⟨⟨_, rfl⟩, ⟨_, rfl⟩, hpair, .inr rfl, .inr ⟨_, rfl⟩⟩,
      .group (.inl rfl) (by simp),
      .rule ⟨⟨_, rfl⟩, ⟨_, rfl⟩, .text _, .inl rfl, .inl rfl⟩⟩
  exact ⟨hportable, ofValue_read_json hportable⟩

end Query
end RuleTree
