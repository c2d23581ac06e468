import RuleTree.Query
import RuleTree.Proofs.Canonical
import RuleTree.Proofs.Endings
import RuleTree.Proofs.Lockstep
import RuleTree.Proofs.Operands
import RuleTree.Proofs.Runs

/-! # Rules without numbers

Text matches, null checks and rules between fields have no value that could be a number: a text
match takes its value as text whatever it looks like, a null check takes none, and the values of
a rule between fields are names (`Rule.IsNumberless`).  No writer asks the number policy about
them (`Writer.IgnoresNumbers`), with the policy of the caller or with the strict one that a
numeric field brings, so two policies write a tree of such rules alike
(`Query.format_numberless`).
-/
namespace RuleTree

/-- A text match, a null check, or a rule between fields. -/
def Rule.IsNumberless (r : Rule) : Prop :=
  r.comparesFields = true ∨
    ∃ op, r.operator? = some op ∧ (op.isTextMatch = true ∨ op.isNullCheck = true)

/-- The plan under another number policy. -/
def FormatPlan.under (plan : FormatPlan) (policy : NumberPolicy) : FormatPlan :=
  { plan with style := { plan.style with policy := policy } }

/-- Without a function of the caller for values the number policy bears on nothing that a rule
without numbers is written as. -/
def Writer.IgnoresNumbers {α : Type} (w : Writer α) : Prop :=
  ∀ (plan : FormatPlan) (r : Rule) (context : Option RuleContext) (policy policy' : NumberPolicy),
    plan.valueHook = .absent → r.IsNumberless →
      w.write (plan.under policy) r context = w.write (plan.under policy') r context

namespace Operator
variable {op : Operator}

/-- Text matches and null checks have one value or none. -/
theorem single_of_isNumberless (h : op.isTextMatch = true ∨ op.isNullCheck = true) :
    op.isMembership = false ∧ op.isRange = false := by
  cases op <;> first | exact ⟨rfl, rfl⟩ | simp [isTextMatch, isNullCheck] at h

end Operator

/-! ### Rules -/

namespace Sql
variable {plan : FormatPlan} {r : Rule}

theorem valueText_under (h : r.IsNumberless) (policy policy' : NumberPolicy) :
    valueText r (plan.under policy).style = valueText r (plan.under policy').style := by
  unfold valueText
  rcases h with hfields | ⟨op, hop, hkind⟩
  · rw [hfields]
    rfl
  · obtain ⟨hmember, hrange⟩ := Operator.single_of_isNumberless hkind
    cases hfields : r.comparesFields with
    | true => rfl
    | false =>
      rw [hop]
      rcases hkind with htext | hnull
      · simp [hmember, hrange, htext]
      · simp [hnull]

theorem ruleValue_under (hvalue : plan.valueHook = .absent) (h : r.IsNumberless)
    (policy policy' : NumberPolicy) :
    ruleValue (plan.under policy) r = ruleValue (plan.under policy') r := by
  have hunder (q : NumberPolicy) : (plan.under q).valueHook = .absent := hvalue
  simp only [ruleValue, hunder, valueText_under h policy policy']

theorem plainWriter_ignoresNumbers : plainWriter.IgnoresNumbers := by
  intro plan r context policy policy' hvalue h
  have hrule : plainRule (plan.under policy) r = plainRule (plan.under policy') r := by
    unfold plainRule
    rw [ruleValue_under hvalue h policy policy']
    rfl
  show (do return Value.text (← plainRule (plan.under policy) r) : Write Value) = _
  rw [hrule]
  rfl

theorem skeletonOf_under {op : Operator}
    (h : r.comparesFields = true ∨ op.isTextMatch = true ∨ op.isNullCheck = true)
    (policy policy' : NumberPolicy) (spelling : String) (written : Value) :
    skeletonOf (plan.under policy).style op spelling r written =
      skeletonOf (plan.under policy').style op spelling r written := by
  unfold skeletonOf
  rcases h with hfields | hkind
  · rw [hfields]
    rfl
  · obtain ⟨hmember, hrange⟩ := Operator.single_of_isNumberless hkind
    rcases hkind with htext | hnull
    · simp only [hmember, hrange, singleParam, htext, if_true]
      rfl
    · simp only [hmember, hrange, hnull, if_true]
      rfl

theorem ruleSkeleton_under (hvalue : plan.valueHook = .absent) (h : r.IsNumberless)
    (policy policy' : NumberPolicy) :
    ruleSkeleton (plan.under policy) r = ruleSkeleton (plan.under policy') r := by
  unfold ruleSkeleton
  rw [ruleValue_under hvalue h policy policy']
  refine Result.bind_congr fun op hresolve => ?_
  have hkind : r.comparesFields = true ∨ op.isTextMatch = true ∨ op.isNullCheck = true := by
    refine Or.imp_right (fun ⟨op', hop, hkind⟩ => ?_) h
    obtain rfl : op' = op :=
      Except.ok.inj ((Rule.resolve_of_operator? hop _).symm.trans hresolve)
    exact hkind
  simp only [skeletonOf_under hkind policy policy']
  rfl

theorem boundWriter_ignoresNumbers (d : Dialect) : (boundWriter d).IgnoresNumbers := by
  intro plan r context policy policy' hvalue h
  have hrule (asked : List Value) : boundRule (plan.under policy) r context asked =
      boundRule (plan.under policy') r context asked := by
    unfold boundRule
    rw [ruleSkeleton_under hvalue h policy policy']
    rfl
  unfold boundWriter
  simp only [hrule]

end Sql

section
variable {plan : FormatPlan} {r : Rule} {policy : NumberPolicy}

theorem suppliedValue_under (hvalue : plan.valueHook = .absent) (op : Operator) :
    (plan.under policy).suppliedValue r op = .ok none := by
  have hunder : (plan.under policy).valueHook = .absent := hvalue
  exact FormatPlan.suppliedValue_of_absent hunder r op

/-- An operator is resolved alike for every dialect, so its kind is known. -/
theorem Rule.IsNumberless.kind (h : r.IsNumberless) {d : Dialect} {op : Operator}
    (hop : Language.ruleOperator d r = .ok op) :
    r.comparesFields = true ∨ op.isTextMatch = true ∨ op.isNullCheck = true := by
  refine Or.imp_right (fun ⟨op', hop', hkind⟩ => ?_) h
  rw [Language.ruleOperator, hop'] at hop
  rwa [← Except.ok.inj hop]

end

namespace Mongo

/-- The pattern of a text match is made of the text. -/
theorem ownRule_textMatch {op : Operator} (htext : op.isTextMatch = true) (policy : NumberPolicy)
    (v : Value) :
    ownRule policy op v = some (patternMatch op (.text (Pattern.ofText op v.display))) := by
  obtain ⟨hmember, hrange⟩ := Operator.single_of_isNumberless (Or.inl htext)
  simp [ownRule, hmember, hrange, htext]

theorem writer_ignoresNumbers : writer.IgnoresNumbers := by
  intro plan r context policy policy' hvalue h
  have hrule : writeRule (plan.under policy) r = writeRule (plan.under policy') r := by
    unfold writeRule
    refine Result.bind_congr fun op hop => ?_
    cases hfields : r.comparesFields with
    | true => rfl
    | false =>
      have hcondition : condition? (plan.under policy) op r = condition? (plan.under policy') op r := by
        simp only [condition?, suppliedValue_under hvalue]
        rcases h.kind hop with hcompares | htext | hnull
        · exact absurd (hfields.symm.trans hcompares) Bool.false_ne_true
        · simp only [ownRule_textMatch htext]
        · cases op <;> first | rfl | simp [Operator.isNullCheck] at hnull
      rw [hcondition]
  unfold writer
  simp only [hrule]

end Mongo

namespace JsonLogic
variable {plan : FormatPlan} {r : Rule} {policy policy' : NumberPolicy} {op : Operator}

/-- Names are written as variables. -/
theorem operand_of_comparesFields (hfields : r.comparesFields = true) (style : Style) :
    operand style r = variableOf := by
  funext v
  simp [operand, hfields]

theorem ownRule_under
    (h : r.comparesFields = true ∨ op.isTextMatch = true ∨ op.isNullCheck = true) :
    ownRule (plan.under policy).style op r = ownRule (plan.under policy').style op r := by
  unfold ownRule singleValue
  cases hfields : r.comparesFields with
  | true => simp only [operand_of_comparesFields hfields]
  | false =>
    have hkind := h.resolve_left (by simp [hfields])
    obtain ⟨hmember, hrange⟩ := Operator.single_of_isNumberless hkind
    rcases hkind with htext | hnull
    · simp [hmember, hrange, htext]
    · simp [hnull]

theorem writer_ignoresNumbers : writer.IgnoresNumbers := by
  intro plan r context policy policy' hvalue h
  have hrule : writeRule (plan.under policy) r = writeRule (plan.under policy') r := by
    unfold writeRule
    refine Result.bind_congr fun op hop => ?_
    simp only [suppliedValue_under hvalue, Result.ok_bind]
    rw [ownRule_under (h.kind hop)]
  unfold writer
  simp only [hrule]

end JsonLogic

namespace Language
variable {l : Language} {plan : FormatPlan} {r : Rule} {policy policy' : NumberPolicy}
  {op : Operator}

/-- Names stand for themselves. -/
theorem operand_of_comparesFields (hfields : r.comparesFields = true) (style : Style) :
    l.operand style r = Value.display := by
  funext v
  simp [operand, hfields]

theorem ownRule_under (h : r.comparesFields = true ∨ op.isTextMatch = true)
    (field spelling : String) :
    l.ownRule (plan.under policy).style op field spelling r =
      l.ownRule (plan.under policy').style op field spelling r := by
  unfold ownRule singleValue
  cases hfields : r.comparesFields with
  | true => simp only [operand_of_comparesFields hfields]
  | false =>
    have htext := h.resolve_left (by simp [hfields])
    obtain ⟨hmember, hrange⟩ := Operator.single_of_isNumberless (Or.inl htext)
    simp [hmember, hrange, htext]

theorem writer_ignoresNumbers (l : Language) : l.writer.IgnoresNumbers := by
  intro plan r context policy policy' hvalue h
  have hrule : l.writeRule (plan.under policy) r = l.writeRule (plan.under policy') r := by
    unfold writeRule
    refine Result.bind_congr fun op hop => Result.bind_congr fun spelling _ => ?_
    simp only [suppliedValue_under hvalue, Result.ok_bind]
    split
    · rfl
    split
    · rfl
    · rename_i hnull hnotNull
      have hkind := (h.kind hop).imp_right fun hkind => hkind.resolve_right
        (by simp [Operator.isNullCheck_eq_false hnull hnotNull])
      rw [ownRule_under hkind]
  unfold writer
  simp only [hrule]

end Language

namespace Prose
variable {plan : FormatPlan} {r : Rule} {policy policy' : NumberPolicy} {op : Operator}

/-- Names are written by the labels of their fields. -/
theorem describe_of_comparesFields (hfields : r.comparesFields = true) (style : Style) :
    describe style r = fun v => label style.fields (.text v.display) := by
  funext v
  simp [describe, hfields]

theorem ownRule_under (h : r.comparesFields = true ∨ op.isTextMatch = true) (start : String) :
    ownRule (plan.under policy).style op start r =
      ownRule (plan.under policy').style op start r := by
  unfold ownRule describeSingle
  cases hfields : r.comparesFields with
  | true =>
    simp only [describe_of_comparesFields hfields]
    rfl
  | false =>
    have htext := h.resolve_left (by simp [hfields])
    obtain ⟨hmember, hrange⟩ := Operator.single_of_isNumberless (Or.inl htext)
    simp [hmember, hrange, htext]

theorem writer_ignoresNumbers : writer.IgnoresNumbers := by
  intro plan r context policy policy' hvalue h
  have hrule : writeRule (plan.under policy) r = writeRule (plan.under policy') r := by
    unfold writeRule
    refine Result.bind_congr fun op hop => Result.bind_congr fun start _ => ?_
    simp only [suppliedValue_under hvalue, Result.ok_bind]
    split
    · rfl
    · rename_i hnull
      rw [ownRule_under ((h.kind hop).imp_right fun hkind => hkind.resolve_right hnull)]
  unfold writer
  simp only [hrule]

end Prose

namespace Qdrant
variable {r : Rule} {policy policy' : NumberPolicy} {op : Operator}

theorem ruleTest_under (h : op.isTextMatch = true ∨ op.isNullCheck = true) (supplied : Bool)
    (v : Value) (path : Option Path) :
    ruleTest policy op r supplied v path = ruleTest policy' op r supplied v path := by
  cases op <;> first | rfl | simp [Operator.isTextMatch, Operator.isNullCheck] at h

theorem writer_ignoresNumbers (p : Payload) : (writer p).IgnoresNumbers := by
  intro plan r context policy policy' hvalue h
  have hrule : writeRule p (plan.under policy) r context =
      writeRule p (plan.under policy') r context := by
    unfold writeRule
    refine Result.bind_congr fun key _ => ?_
    cases hfields : r.comparesFields with
    | true => rfl
    | false =>
      obtain ⟨op, hop, hkind⟩ := h.resolve_left (by simp [hfields])
      simp only [hop, suppliedValue_under hvalue, Result.ok_bind]
      rw [ruleTest_under hkind]
  unfold writer
  simp only [hrule]

end Qdrant

/-! ### Trees -/

/-- A field is found to be numeric, or to have no such kind, under every policy, and gives a
policy of its own at most. -/
theorem FormatPlan.forField_under (plan : FormatPlan) (field : Option Field) :
    (∃ e, ∀ policy, (plan.under policy).forField field = .error e) ∨
      ∀ policy, ∃ policy', (plan.under policy).forField field = .ok (plan.under policy') := by
  cases field with
  | none => exact Or.inr fun policy => ⟨policy, rfl⟩
  | some f =>
    cases hnumeric : f.isNumeric with
    | error e => exact Or.inl ⟨e, fun policy => by simp only [forField, hnumeric]; rfl⟩
    | ok numeric =>
      refine Or.inr fun policy => ?_
      simp only [forField, hnumeric, Result.ok_bind]
      split
      · exact ⟨.strict, rfl⟩
      · exact ⟨policy, rfl⟩

namespace Writer
variable {α : Type} {w : Writer α} {plan : FormatPlan} {t : Node}

theorem IgnoresNumbers.writeRule (h : w.IgnoresNumbers) (hrule : plan.ruleHook = .absent)
    (hvalue : plan.valueHook = .absent) {r : Rule} (hr : r.IsNumberless) (path : Path)
    (policy policy' : NumberPolicy) :
    w.writeRule (plan.under policy) path r = w.writeRule (plan.under policy') path r := by
  funext bindings
  have hunder (q : NumberPolicy) : (plan.under q).ruleHook = .absent := hrule
  rw [w.writeRule_apply (hunder policy), w.writeRule_apply (hunder policy')]
  refine Result.bind_congr fun field _ => ?_
  split
  · rcases plan.forField_under field with ⟨e, he⟩ | hfield
    · rw [he policy, he policy']
    · obtain ⟨q, hq⟩ := hfield policy
      obtain ⟨q', hq'⟩ := hfield policy'
      rw [hq, hq', Result.ok_bind, Result.ok_bind, h plan r _ q q' hvalue hr]
  · rfl

/-- A tree of rules without numbers is written alike under all policies. -/
theorem IgnoresNumbers.run (h : w.IgnoresNumbers) (hrule : plan.ruleHook = .absent)
    (hvalue : plan.valueHook = .absent) (ht : ∀ r ∈ t.rules, r.IsNumberless)
    (policy policy' : NumberPolicy) :
    w.run (plan.under policy) t = w.run (plan.under policy') t := by
  refine Writer.run_congr ?_ ?_ fun r hr path => ?_
  · rfl
  · rfl
  · exact h.writeRule hrule hvalue (ht r hr) path policy policy'

end Writer

/-- The policy is the only part of a plan that the option for numbers bears on. -/
theorem FormatOptions.resolve_numbers (o : FormatOptions) {numbers : Value} {policy : NumberPolicy}
    (h : NumberPolicy.ofValue numbers = .ok policy) :
    ({ o with parseNumbers := numbers } : FormatOptions).resolve =
      ({ o with parseNumbers := .null } : FormatOptions).resolve.map fun plan =>
        plan.under policy := by
  unfold resolve
  rw [Result.map_bind]
  refine Result.bind_congr fun format _ => ?_
  rw [Result.map_bind]
  refine Result.bind_congr fun preset _ => ?_
  have hnull : NumberPolicy.ofValue .null = .ok .never := rfl
  rw [h, hnull, Result.ok_bind, Result.ok_bind, Result.map_bind]
  refine Result.bind_congr fun quotes _ => ?_
  rw [Result.map_bind]
  refine Result.bind_congr fun fields _ => ?_
  rfl

namespace Query
variable {plan : FormatPlan} {t : Node}

theorem write_under (hrule : plan.ruleHook = .absent) (hvalue : plan.valueHook = .absent)
    (ht : ∀ r ∈ t.rules, r.IsNumberless) (policy policy' : NumberPolicy) (d : Dialect) :
    write d (plan.under policy) t = write d (plan.under policy') t := by
  have hrun {α : Type} {w : Writer α} (h : w.IgnoresNumbers) :
      w.run (plan.under policy) t = w.run (plan.under policy') t :=
    h.run hrule hvalue ht policy policy'
  have hbound (d : Dialect) : Sql.bound d (plan.under policy) t =
      Sql.bound d (plan.under policy') t := by
    -- parameters get their default names first
    let named : FormatPlan := { plan with names := plan.names.orElse NameSource.perField }
    have hruleNamed : named.ruleHook = .absent := hrule
    have hnamed : (Sql.boundWriter d).run (named.under policy) t =
        (Sql.boundWriter d).run (named.under policy') t :=
      (Sql.boundWriter_ignoresNumbers d).run hruleNamed hvalue ht policy policy'
    show (Sql.boundWriter d).run (named.under policy) t >>= _ = _
    rw [hnamed]
    rfl
  cases d with
  | sql =>
    simp only [write, Sql.plain, Writer.within_none, hrun Sql.plainWriter_ignoresNumbers]
    rfl
  | parameterized => simp only [write, hbound]
  | parameterizedNamed => simp only [write, hbound]
  | mongodb =>
    simp only [write, Mongo.format, Writer.within_none, hrun Mongo.writer_ignoresNumbers]
    rfl
  | jsonlogic =>
    simp only [write, JsonLogic.format, Writer.within_none, hrun JsonLogic.writer_ignoresNumbers]
    rfl
  | cel =>
    simp only [write, Language.format, Writer.within_none, hrun (Language.writer_ignoresNumbers .cel)]
    rfl
  | spel =>
    simp only [write, Language.format, Writer.within_none, hrun (Language.writer_ignoresNumbers .spel)]
    rfl
  | naturalLanguage =>
    simp only [write, Prose.format, Writer.within_none, hrun Prose.writer_ignoresNumbers]
    rfl
  | qdrant =>
    simp only [write, Qdrant.filter?, Writer.within_none, Qdrant.filterBy,
      hrun (Qdrant.writer_ignoresNumbers {})]
    rfl

/-- **Numbers never touch text.**  A tree whose rules are text matches, null checks and rules
between fields is written in every format to the same output, or fails with the same error, under
any two number policies, whatever its values look like and whatever fields are configured. -/
theorem format_numberless {o : FormatOptions} {numbers numbers' : Value}
    {policy policy' : NumberPolicy} (hnumbers : NumberPolicy.ofValue numbers = .ok policy)
    (hnumbers' : NumberPolicy.ofValue numbers' = .ok policy') (hrule : o.ruleHook = .absent)
    (hvalue : o.valueHook = .absent) (htree : t.IsTree) (ht : ∀ r ∈ t.rules, r.IsNumberless) :
    format { o with parseNumbers := numbers } t = format { o with parseNumbers := numbers' } t := by
  unfold format
  rw [o.resolve_numbers hnumbers, o.resolve_numbers hnumbers', ofInput_of_isTree htree]
  cases hplan : ({ o with parseNumbers := .null } : FormatOptions).resolve with
  | error e => rfl
  | ok plan =>
    have hplans := FormatOptions.plans_of_resolve hplan
    have hruleHook : plan.ruleHook = .absent := hplans.ruleHook.trans hrule
    have hvalueHook : plan.valueHook = .absent := hplans.valueHook.trans hvalue
    have hformat (q : NumberPolicy) : (plan.under q).style.format = plan.style.format := rfl
    simp only [Except.map, Result.ok_bind, hformat]
    split
    · rfl
    · rfl
    · exact write_under hruleHook hvalueHook ht policy policy' _

/-- A call under a field of numbers. -/
def numberOptions : FormatOptions where
  format := .text "cel"
  fields := .list [.field { name := .text "n", datatype := .text "number" }]

/-- Rules on that field, with values that are numbers or look like some. -/
def numberlessSpecimen : Node :=
  .group (.text "and") {}
    [.rule (Rule.of "n" .contains (.text "1_000")), .rule (Rule.of "n" .beginsWith (.int 7)),
      .rule (Rule.of "n" .null (.text "1e3")), .rule (Rule.ofFields "n" .lt (.text "12"))]

theorem format_numberless_specimen :
    format { numberOptions with parseNumbers := .text "always" } numberlessSpecimen =
      .ok (.value (.text "n.contains(\"1_000\") && n.startsWith(\"7\") && n == null && n < 12")) := by
  have htree : numberlessSpecimen.IsTree := by
    refine .group ?_
    simp only [List.forall_mem_cons, List.not_mem_nil, false_imp_iff, implies_true, and_true]
    exact ⟨.rule _, .rule _, .rule _, .rule _⟩
  have hrules : ∀ r ∈ numberlessSpecimen.rules, r.IsNumberless := by
    simp only [numberlessSpecimen, Node.rules_group, List.flatMap_cons, List.flatMap_nil,
      Node.rules_rule, List.append_nil, List.singleton_append, List.forall_mem_cons,
      List.not_mem_nil, false_imp_iff, implies_true, and_true]
    exact ⟨Or.inr ⟨.contains, rfl, Or.inl rfl⟩, Or.inr ⟨.beginsWith, rfl, Or.inl rfl⟩,
      Or.inr ⟨.null, rfl, Or.inr rfl⟩, Or.inl rfl⟩
  have hnever : format { numberOptions with parseNumbers := .text "never" } numberlessSpecimen =
      .ok (.value (.text "n.contains(\"1_000\") && n.startsWith(\"7\") && n == null && n < 12")) := rfl
  exact (format_numberless (o := numberOptions) rfl rfl rfl rfl htree hrules).trans hnever

end Query
end RuleTree
