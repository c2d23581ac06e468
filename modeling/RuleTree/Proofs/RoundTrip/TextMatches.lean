import RuleTree.Proofs.FieldNames
import RuleTree.Proofs.RoundTrip.Mongo

/-! # Text matches come back

The document of a text match on a field has a pattern, under a negation if the match is negated.
Whatever the text is, the document is read as one text match on that field, and with whatever
options: its literal is no number and no list, and stands in the root
(`Clause.toTree_textMatch`).  It is the same text match exactly if the pattern is read as it is
meant (`Query.parse_textMatch_iff`).
-/
namespace RuleTree

/-! ### Trees of one rule -/

namespace Clause

/-- A tree of one rule, in the shape that the plan asks for. -/
def treeOfRule (plan : ParsePlan) (r : Rule) : Node :=
  if plan.interleaved then .interleaved {} [.rule r] else .group (.text "and") {} [.rule r]

/-- A text match has nothing to store otherwise. -/
theorem finishRule_of_isTextMatch (plan : ParsePlan) (field : String) {op : Operator}
    (hop : op.isTextMatch = true) (s : String) :
    finishRule plan (.of field op (.text s)) = .of field op (.text s) := by
  have hplain : readsNumbers (.of field op (.text s)) = false := by
    simp [readsNumbers, Rule.of, Rule.operator?, hop]
  simp only [finishRule, Rule.of] at hplain ⊢
  simp [hplain]

/-- A text match is a tree if its field is configured, where fields are. -/
theorem toTree_textMatch (traits : SourceTraits) {plan : ParsePlan}
    (hdepth : plan.checkDepth 1 = .ok ()) {field : String}
    (hfield : plan.fields = [] ∨ plan.fields.Has (.text field)) {op : Operator}
    (hop : op.isTextMatch = true) (s : String) :
    toTree traits plan (some (.rule (.of field op (.text s)))) =
      .ok (treeOfRule plan (.of field op (.text s))) := by
  have hroot : rootOf traits (some (.rule (.of field op (.text s)))) =
      .group false (.rule (.of field op (.text s))) [] := rfl
  have hgroup : toGroup traits plan (.group false (.rule (.of field op (.text s))) []) =
      .ok (.interleaved {} [.rule (.of field op (.text s))]) := by
    rw [toGroup, hdepth, toMember, finish_none, finishRule_of_isTextMatch plan field hop]
    rfl
  have hshaped : shaped plan (.interleaved {} [.rule (.of field op (.text s))]) =
      .ok (treeOfRule plan (.of field op (.text s))) := by
    rw [shaped, treeOfRule]
    cases plan.interleaved <;> rfl
  have hnames : ∀ r ∈ (treeOfRule plan (.of field op (.text s))).rules,
      namedFields r = [.text field] := by
    rw [rules_of_shaped hshaped]
    exact List.forall_mem_singleton.mpr rfl
  rw [toTree_eq, hroot, hgroup, Result.ok_bind, hshaped, Result.ok_bind]
  refine (checked_eq_ok_iff plan fun r hr name hname => ?_).mpr (hfield.imp_right fun hhas => ?_)
  · rw [hnames r hr] at hname
    exact ⟨field, List.mem_singleton.mp hname⟩
  · intro r hr
    rw [hnames r hr]
    exact List.forall_mem_singleton.mpr hhas

end Clause

/-! ### Documents with a pattern -/

namespace Mongo
variable {op : Operator} (hop : op.isTextMatch = true)
include hop

/-- A text match is written as its pattern. -/
theorem writeRule_textMatch {plan : FormatPlan} (hhook : plan.valueHook = .absent)
    (field s : String) :
    writeRule plan (.of field op (.text s)) =
      .ok (patternMatch op (.text (Pattern.ofText op s)) field) := by
  obtain ⟨hnull, hmember, hrange⟩ := Operator.of_isTextMatch hop
  have hcondition : condition? plan op (.of field op (.text s)) =
      .ok (some (patternMatch op (.text (Pattern.ofText op s)))) := by
    have hne : op ≠ .null ∧ op ≠ .notNull := by
      constructor <;> rintro rfl <;> cases hnull
    rw [condition?, if_neg hne.1, if_neg hne.2, FormatPlan.suppliedValue_of_absent hhook]
    simp [ownRule, hmember, hrange, hop, Rule.of]
    rfl
  have hoperator : Language.ruleOperator .mongodb (.of field op (.text s)) = .ok op := by
    simp [Language.ruleOperator, Rule.operator?, Rule.of]
  rw [writeRule, hoperator, Result.ok_bind, hcondition]
  rfl

/-- A document of a pattern is read as a text match, which is the one that it was written for
exactly if that has no line break, and no backslash before the anchor of an end. -/
theorem exists_read_textMatch {plan : ParsePlan} (hdepth : plan.checkDepth 1 = .ok ())
    {field : String} (hname : IsName field)
    (hfield : plan.fields = [] ∨ plan.fields.Has (.text field)) (s : String) :
    ∃ op' s', read plan (patternMatch op (.text (Pattern.ofText op s)) field) =
        .ok (Clause.treeOfRule plan (.of field op' (.text s'))) ∧
      (op' = op ∧ s' = s ↔ IsMatch op s) := by
  obtain ⟨found, text, hread, hfound⟩ := Pattern.exists_read?_ofText hop s
  have hpattern : Pattern.rule (.text "mongodb") (.text field) (.text (Pattern.ofText op s)) =
      .ok (.of field found (.text (String.ofList text))) := by
    rw [Pattern.rule]
    simp only [hread]
    rfl
  -- a negated match is the complement of the pattern under `$not`
  obtain ⟨op', hop', hrule, hiff⟩ : ∃ op', op'.isTextMatch = true ∧
      (if op.isNegatedText then Clause.invertRule (.of field found (.text (String.ofList text)))
        else .of field found (.text (String.ofList text))) =
          .of field op' (.text (String.ofList text)) ∧ (op' = op ↔ found = Pattern.matchOf op) := by
    rw [Pattern.matchOf]
    cases op.isNegatedText with
    | false => exact ⟨found, hfound, rfl, Iff.rfl⟩
    | true =>
      refine ⟨found.inverse, (Operator.isTextMatch_inverse found).trans hfound, ?_, ?_, ?_⟩
      · rw [if_pos rfl]
        exact Clause.invertRule_ofSource .value field found (.text (String.ofList text))
      · rintro rfl
        exact (Operator.inverse_inverse found).symm
      · rintro rfl
        exact Operator.inverse_inverse op
  refine ⟨op', String.ofList text, ?_, ?_⟩
  · have hclause : clause? plan (patternMatch op (.text (Pattern.ofText op s)) field) =
        .ok (some (.rule (.of field op' (.text (String.ofList text))))) := by
      rw [← hrule, clause?]
      show (entryClauses plan 1 [(field, _)] >>= fun cs => conjunction plan 1 cs) = _
      rw [entryClauses_field hname, conditions_patternMatch hpattern]
      rfl
    rw [read, hclause]
    exact Clause.toTree_textMatch traits hdepth hfield hop' _
  · have htext : String.ofList text = s ↔ text = s.toList := by
      rw [← String.toList_inj, String.toList_ofList]
    rw [IsMatch, ← Pattern.read?_ofText_iff hop, hread, hiff, htext, Option.some.injEq,
      Prod.mk.injEq]

end Mongo

namespace Query

/-- **Patterns of text matches.**  The document of a text match is read as a tree of one text
match on the same field, which is the same one exactly if its text has no line break, and no
backslash before the anchor of an end. -/
theorem parse_textMatch_iff {op : Operator} (hop : op.isTextMatch = true) {field : String}
    (hname : Mongo.IsName field) (s : String) {formatPlan : FormatPlan}
    (hhook : formatPlan.valueHook = .absent) (context : Option RuleContext)
    {input : OptionsInput ParseOptions} {overrides : List (String × OptionValue)}
    {o : ParseOptions} {plan : ParsePlan} (hbuild : ParseOptions.build input overrides = .ok o)
    (hplan : o.resolve = .ok plan)
    (hfield : plan.fields = [] ∨ plan.fields.Has (.text field)) :
    ∃ document op' s',
      writeRule .mongodb formatPlan (.of field op (.text s)) context = .ok (.value document) ∧
      parse (.value document) (.text "mongodb") input overrides =
        .ok (Clause.treeOfRule plan (.of field op' (.text s'))) ∧
      (op' = op ∧ s' = s ↔ Mongo.IsMatch op s) := by
  have hdepth := ParseOptions.checkDepth_one hplan
  obtain ⟨op', s', hread, hiff⟩ := Mongo.exists_read_textMatch hop hdepth hname hfield s
  refine ⟨Mongo.patternMatch op (.text (Pattern.ofText op s)) field, op', s', ?_, ?_, hiff⟩
  · rw [writeRule, Mongo.writeRule_textMatch hop hhook]
    rfl
  · rw [parse_eq_readSource rfl hbuild hplan]
    exact hread

/-- A text with an escaped dollar sign at its end is read back, and no part of it as a
number. -/
theorem parse_textMatch_iff_specimen :
    ∃ document, writeRule .mongodb { style := { format := .dialect .mongodb } }
          (.of "a" .doesNotEndWith (.text "^1.\\$")) none = .ok (.value document) ∧
      parse (.value document) (.text "mongodb") .defaults
          [("parse_numbers", .plain (.bool true))] =
        .ok (.group (.text "and") {} [.rule (.of "a" .doesNotEndWith (.text "^1.\\$"))]) := by
  have hbuild : ParseOptions.build .defaults [("parse_numbers", .plain (.bool true))] =
      .ok { parseNumbers := .bool true } := rfl
  have hplan : ({ parseNumbers := .bool true } : ParseOptions).resolve =
      .ok { policy := .strict } := rfl
  have hhook : ({ style := { format := .dialect .mongodb } } : FormatPlan).valueHook = .absent :=
    rfl
  obtain ⟨document, op', s', hwrite, hparse, hiff⟩ := parse_textMatch_iff
    (rfl : Operator.doesNotEndWith.isTextMatch = true) (by decide : Mongo.IsName "a")
    "^1.\\$" hhook none hbuild hplan (.inl rfl)
  obtain ⟨rfl, rfl⟩ := hiff.mpr ⟨by decide, by decide⟩
  exact ⟨document, hwrite, hparse⟩

/-- A backslash comes in front of a line break, and one at an end hides the anchor. -/
theorem parse_textMatch_iff_backslashes :
    (∃ document, writeRule .mongodb { style := { format := .dialect .mongodb } }
          (.of "a" .contains (.text "x\ny")) none = .ok (.value document) ∧
      parse (.value document) (.text "mongodb") .defaults [] =
        .ok (.group (.text "and") {} [.rule (.of "a" .contains (.text "x\\\ny"))])) ∧
    ∃ document, writeRule .mongodb { style := { format := .dialect .mongodb } }
          (.of "a" .endsWith (.text "x\\")) none = .ok (.value document) ∧
      parse (.value document) (.text "mongodb") .defaults [] =
        .ok (.group (.text "and") {} [.rule (.of "a" .contains (.text "x\\$"))]) :=
  ⟨⟨_, rfl, rfl⟩, _, rfl, rfl⟩

end Query
end RuleTree
