import RuleTree.Proofs.Outputs
import RuleTree.Query

/-! # Runs of a writer

What a call makes of its options and its query before a writer goes through it: the
plan that the options come to, and the standard group that stands for the query
(`Node.standardRoot`).  Without validation a run is the writer on that group
(`Writer.run_of_not_validate`), and with it the writer under the judgement of the
validator (`Writer.run_of_validate`).
-/
namespace RuleTree

/-! ### Plans -/

namespace FormatOptions
variable {o : FormatOptions} {plan : FormatPlan}

/-- A plan has what the options say. -/
structure Plans (o : FormatOptions) (plan : FormatPlan) : Prop where
  format : formatOf o.format = .ok plan.style.format
  fields : FieldTable.ofInput o.fields = .ok plan.style.fields
  names : plan.names = o.names
  valueHook : plan.valueHook = o.valueHook
  ruleHook : plan.ruleHook = o.ruleHook
  fallback : plan.fallback = o.fallback
  validate : plan.validate = o.validate.truthy
  validator : plan.validator = o.validator

theorem plans_of_resolve (h : o.resolve = .ok plan) : o.Plans plan := by
  obtain ⟨format, hformat, h⟩ := Result.bind_eq_ok h
  obtain ⟨preset, -, h⟩ := Result.bind_eq_ok h
  obtain ⟨policy, -, h⟩ := Result.bind_eq_ok h
  obtain ⟨quotes, -, h⟩ := Result.bind_eq_ok h
  obtain ⟨fields, hfields, h⟩ := Result.bind_eq_ok h
  obtain rfl := Except.ok.inj h
  exact ⟨hformat, hfields, rfl, rfl, rfl, rfl, rfl, rfl⟩

/-- Whether a query is validated and who writes its rules is taken over as it is. -/
theorem resolve_with (o : FormatOptions) (validate : Value) (ruleHook : Hook RuleHook) :
    ({ o with validate := validate, ruleHook := ruleHook } : FormatOptions).resolve =
      o.resolve.map fun plan => { plan with validate := validate.truthy, ruleHook := ruleHook } := by
  unfold resolve
  rw [Result.map_bind]
  refine Result.bind_congr fun format _ => ?_
  rw [Result.map_bind]
  refine Result.bind_congr fun preset _ => ?_
  rw [Result.map_bind]
  refine Result.bind_congr fun policy _ => ?_
  rw [Result.map_bind]
  refine Result.bind_congr fun quotes _ => ?_
  rw [Result.map_bind]
  refine Result.bind_congr fun fields _ => ?_
  rfl

end FormatOptions

/-! ### Roots -/

namespace Node
variable {t root : Node}

/-- The standard group that is written of a tree. -/
def standardRoot (t : Node) : Result Node := t.asGroup.toStandard

theorem standardRoot_rule (r : Rule) : (Node.rule r).standardRoot = .ok (ofChildren "and" [.rule r]) := rfl

/-- A rule on its own is in a group of its own. -/
theorem IsTree.asGroup (h : t.IsTree) : t.asGroup.IsTree := by
  cases h with
  | rule r => exact .group (by simpa using IsTree.rule r)
  | group h => exact .group h
  | interleaved h h' => exact .interleaved h h'

theorem IsStandard.asGroup (h : t.IsStandard) : t.asGroup.IsStandard := by
  cases h with
  | rule r => exact .group (by simpa using IsStandard.rule r)
  | group h => exact .group h

theorem rules_asGroup (t : Node) : t.asGroup.rules = t.rules := by
  cases t <;> simp [asGroup, ofChildren]

theorem IsTree.isStandard_of_standardRoot (h : t.IsTree) (hroot : t.standardRoot = .ok root) : root.IsStandard :=
  h.asGroup.isStandard (standardMember_of_toStandard hroot)

theorem rules_of_standardRoot (h : t.standardRoot = .ok root) : root.rules = t.rules := by
  rw [rules_of_toStandard h, rules_asGroup]

/-- A standard group is written as it is. -/
theorem IsStandard.standardRoot_eq {combinator : Value} {flags : GroupFlags} {children : List Node}
    (h : (Node.group combinator flags children).IsStandard) :
    (Node.group combinator flags children).standardRoot = .ok (.group combinator flags children) :=
  h.standardMember_eq

end Node

namespace Writer
variable {α : Type} (w : Writer α) {plan : FormatPlan} (t : Node)

theorem run_of_not_validate (h : plan.validate = false) :
    w.run plan t = t.standardRoot >>= fun root => w.writeNode plan none [] root {} := by
  unfold run
  rw [h]
  cases t <;> rfl

theorem run_of_validate (h : plan.validate = true) :
    w.run plan t = (do
      let root ← t.standardRoot
      let validator ← plan.validatorOrDefault
      let judgement ← validator.validate root
      w.writeNode plan (some judgement) [] root {}) := by
  unfold run
  rw [h]
  cases t <;> rfl

end Writer

/-! ### Rows of texts -/

/-- Outputs that are texts are the texts of a row. -/
theorem Value.exists_eq_map_text {outs : List Value} (h : ∀ out ∈ outs, ∃ s, out = .text s) :
    ∃ ss : List String, outs = ss.map .text := by
  induction outs with
  | nil => exact ⟨[], rfl⟩
  | cons out outs ih =>
    obtain ⟨⟨s, rfl⟩, hrest⟩ := List.forall_mem_cons.mp h
    obtain ⟨ss, rfl⟩ := ih hrest
    exact ⟨s :: ss, rfl⟩

/-- Texts are joined to a text, under any combinator. -/
theorem Sql.exists_joinGroup {outs : List Value} (h : ∀ out ∈ outs, ∃ s, out = .text s)
    (combinator : Value) (negated : Bool) :
    ∃ s, joinGroup combinator negated outs = .ok (.text s) := by
  obtain ⟨ss, rfl⟩ := Value.exists_eq_map_text h
  rw [joinGroup, Value.texts_map]
  exact ⟨_, rfl⟩

/-! ### Queries -/

namespace Query
variable {o : FormatOptions} {plan : FormatPlan} {d : Dialect} {t : Node}

/-- A tree is its own input. -/
theorem ofInput_of_isTree (h : t.IsTree) : ofInput t = .ok t := by
  cases h <;> rfl

theorem format_eq_worded (hplan : o.resolve = .ok plan) (hformat : plan.style.format = .dialect d)
    (ht : t.IsTree) (limit : DigitLimit) :
    format o t limit = limit.worded (write d plan t limit) := by
  rw [format, hplan, Result.ok_bind, ofInput_of_isTree ht, Result.ok_bind, hformat]

theorem format_eq_write (hplan : o.resolve = .ok plan) (hformat : plan.style.format = .dialect d)
    (ht : t.IsTree) : format o t = write d plan t :=
  format_eq_worded hplan hformat ht none

end Query
end RuleTree
