import RuleTree.Proofs.Interchange
import RuleTree.Proofs.Readers
import RuleTree.Proofs.SharedSkeleton
import RuleTree.Proofs.RoundTrip

/-! # Translations

A tree that is read can be written, in every dialect but the search filters: its rules
have operators and fields that are texts, its groups have combinators that every dialect
has, and no two of its parameters get one name.  Only documents have no form for a field
that is matched against another field; a tree with such a rule is refused for it, and no
other (`Query.translate_of_parse`).
-/
namespace RuleTree

/-! ### Default options -/

/-- Options that say nothing but how a tree is to be written: rules, values and fields are
left to the library, and nothing is validated. -/
structure FormatPlan.IsUsual (plan : FormatPlan) : Prop where
  format : ∃ d, plan.style.format = .dialect d ∧ d ≠ .qdrant
  concat : plan.style.concat = .text "||"
  fields : plan.style.fields = []
  valueHook : plan.valueHook = .absent
  ruleHook : plan.ruleHook = .absent
  validate : plan.validate = false

theorem FormatPlan.isUsual_usual {d : Dialect} (hd : d ≠ .qdrant) : (usual d).IsUsual :=
  ⟨⟨d, rfl, hd⟩, rfl, rfl, rfl, rfl, rfl⟩

theorem FormatOptions.resolve_name (d : Dialect) :
    ({ format := .text d.name } : FormatOptions).resolve = .ok (.usual d) := by
  cases d <;> rfl

/-- Every dialect but the search filters has a spelling for every operator. -/
theorem Operator.exists_spellIn {d : Dialect} (hd : d ≠ .qdrant) (op : Operator) :
    ∃ s, op.spellIn (.text d.name) = .ok s := by
  cases d <;> first | exact absurd rfl hd | exact ⟨_, rfl⟩

/-! ### Writers -/

namespace Writer
variable {α : Type} {w : Writer α} {plan : FormatPlan} {matching : Bool} {t : Node}

/-- With default options a rule with an operator is written by the dialect. -/
theorem writeRule_of_isUsual (hw : w.dialect ≠ .qdrant) (hplan : plan.IsUsual) {r : Rule}
    {op : Operator} (hop : r.operator? = some op) (path : Path) (s : Bindings) :
    w.writeRule plan path r s = w.write plan r (some ⟨path, s.count, none⟩) s := by
  have hfield : plan.fieldOf r path = .ok none := by
    rw [FormatPlan.fieldOf, hplan.fields]
    rfl
  rw [w.writeRule_apply hplan.ruleHook, hfield, Result.ok_bind,
    canExpress_of_supports hop (Dialect.supports_of_ne_qdrant hw op), if_pos rfl]
  rfl

/-- A tree that is read ends as its rules do, where rows of outputs are joined by `and`
and by `or`. -/
theorem ends_run_of_isRead {E : Error → Prop} {Own : α → Prop} (hw : w.dialect ≠ .qdrant)
    (hplan : plan.IsUsual) (ht : t.IsRead matching)
    (hwrite : ∀ r ∈ t.rules, ∀ op, r.operator? = some op → ∀ context s,
      Result.Ends E (fun output => Own output.1) (w.write plan r context s))
    (hcombine : ∀ (j : Junction) outs, (∀ out ∈ outs, Own out) → ∀ negated isRoot,
      Result.Ends E Own (w.combine (.text j.name) negated isRoot outs)) :
    Result.Ends E (fun output => ∀ out ∈ output.1, Own out) (w.run plan t) := by
  obtain ⟨root, hroot, hstandard, hread, hrules⟩ := ht.exists_standardRoot
  rw [w.run_of_not_validate t hplan.validate, hroot, Result.ok_bind]
  refine ends_writeNode hstandard (fun combinator hmem outs houts _ negated isRoot => ?_)
    (fun e he _ s => ?_) {}
  · obtain ⟨j, rfl⟩ := hread.of_mem_combinators combinator hmem
    exact (hcombine j outs houts negated isRoot).mono (fun _ he => he) fun _ hout _ => hout
  · have hmem : e.2 ∈ t.rules := by
      rw [← hrules, ← hread.rules_liveFrom hstandard []]
      exact List.mem_map_of_mem he
    obtain ⟨op, hop⟩ := (ht.of_mem_rules e.2 hmem).exists_operator
    rw [writeRule_of_isUsual hw hplan hop]
    exact (hwrite e.2 hmem op hop _ s).mono (fun _ he => he) fun _ hout _ => hout

/-- A tree that is read is written where no rule and no row is refused. -/
theorem exists_run_of_isRead (Own : α → Prop) (hw : w.dialect ≠ .qdrant) (hplan : plan.IsUsual)
    (ht : t.IsRead matching)
    (hwrite : ∀ r ∈ t.rules, ∀ op, r.operator? = some op → ∀ context s,
      Result.Ends (fun _ => False) (fun output => Own output.1) (w.write plan r context s))
    (hcombine : ∀ (j : Junction) outs, (∀ out ∈ outs, Own out) → ∀ negated isRoot,
      Result.Ends (fun _ => False) Own (w.combine (.text j.name) negated isRoot outs)) :
    ∃ output, w.run plan t = .ok output := by
  obtain ⟨output, houtput, -⟩ :=
    (ends_run_of_isRead hw hplan ht hwrite hcombine).exists_eq_ok
  exact ⟨output, houtput⟩

end Writer

/-! ### Groups -/

section
variable {E : Error → Prop} (j : Junction)

theorem Language.ends_joinGroup (l : Language) (negated isRoot : Bool) {outs : List Value}
    (h : ∀ out ∈ outs, ∃ s, out = .text s) :
    (l.joinGroup (.text j.name) negated isRoot outs).Ends E fun out => ∃ s, out = .text s := by
  obtain ⟨ss, rfl⟩ := Value.exists_eq_map_text h
  refine Result.Ends.bind (P := fun _ => True) (by cases j <;> trivial) fun connective _ => ?_
  rw [Value.texts_map]
  exact ⟨_, rfl⟩

theorem Prose.ends_joinGroup (negated isRoot : Bool) {outs : List Value}
    (h : ∀ out ∈ outs, ∃ s, out = .text s) :
    (joinGroup (.text j.name) negated isRoot outs).Ends E fun out => ∃ s, out = .text s := by
  obtain ⟨ss, rfl⟩ := Value.exists_eq_map_text h
  refine Result.Ends.bind (P := fun _ => True) trivial fun name _ => ?_
  rw [Value.texts_map]
  exact ⟨_, rfl⟩

theorem Mongo.exists_joinGroup_name (negated : Bool) (outs : List Value) :
    ∃ out, joinGroup (.text j.name) negated outs = .ok out := by
  cases j <;> exact ⟨_, rfl⟩

theorem JsonLogic.exists_joinGroup_name (negated : Bool) (outs : List Value) :
    ∃ out, joinGroup (.text j.name) negated outs = .ok out := by
  cases j <;> exact ⟨_, rfl⟩

end

/-! ### Dialects -/

section
variable {plan : FormatPlan} (hplan : plan.IsUsual) {matching : Bool} {t : Node}
  (ht : t.IsRead matching)
include hplan ht

theorem Sql.exists_run_plain : ∃ output, plainWriter.run plan t = .ok output := by
  have hconcat : plan.style.concat.requireText.FailsOnly fun _ => False := by
    rw [hplan.concat]
    trivial
  refine Writer.exists_run_of_isRead (fun out => ∃ s, out = .text s) nofun hplan ht
    (fun r _ op hop _ s => ?_) fun j outs houts negated _ => ?_
  · exact (Writer.ends_lift_apply (failsOnly_plainRule hplan.valueHook hop hconcat) s).bind
      fun output _ => ⟨_, rfl⟩
  · obtain ⟨s, hs⟩ := Sql.exists_joinGroup houts (.text j.name) negated
    rw [show plainWriter.combine (.text j.name) negated _ outs = _ from hs]
    exact ⟨s, rfl⟩

theorem Sql.exists_run_draft : ∃ output, draftWriter.run plan t = .ok output := by
  have hconcat : plan.style.concat.requireText.FailsOnly fun _ => False := by
    rw [hplan.concat]
    trivial
  obtain ⟨d, hd, hqdrant⟩ := hplan.format
  refine Writer.exists_run_of_isRead (fun _ => True) nofun hplan ht
    (fun r _ op hop _ s => ?_) fun _ _ _ _ _ => trivial
  have hspell : (op.spellIn (.text plan.style.format.name)).FailsOnly fun _ => False := by
    obtain ⟨spelling, hspelling⟩ := op.exists_spellIn hqdrant
    rw [hd, show (Format.dialect d).name = d.name from rfl, hspelling]
    trivial
  rw [write_draft]
  exact (failsOnly_ruleSkeleton hplan.valueHook hop hconcat hspell).bind fun _ _ => trivial

theorem JsonLogic.exists_run : ∃ output, writer.run plan t = .ok output := by
  refine Writer.exists_run_of_isRead (fun _ => True) nofun hplan ht
    (fun r _ op hop _ s => ?_) fun j outs _ negated _ => ?_
  · exact Writer.ends_lift_apply (failsOnly_writeRule hplan.valueHook hop) s
  · obtain ⟨out, hout⟩ := JsonLogic.exists_joinGroup_name j negated outs
    rw [show writer.combine (.text j.name) negated _ outs = _ from hout]
    trivial

theorem Language.exists_run (l : Language) (hl : l.dialect ≠ .qdrant) :
    ∃ output, l.writer.run plan t = .ok output := by
  refine Writer.exists_run_of_isRead (fun out => ∃ s, out = .text s) hl hplan ht
    (fun r _ op hop _ s => ?_)
    fun j outs houts negated isRoot => l.ends_joinGroup j negated isRoot houts
  have hspell : (op.spellIn (.text l.dialect.name)).FailsOnly fun _ => False := by
    obtain ⟨spelling, hspelling⟩ := op.exists_spellIn hl
    rw [hspelling]
    trivial
  exact (Writer.ends_lift_apply (l.failsOnly_writeRule hplan.valueHook hop hspell) s).bind
    fun output _ => ⟨_, rfl⟩

theorem Prose.exists_run : ∃ output, writer.run plan t = .ok output := by
  have hlabel (name : Value) : label plan.style.fields name = .ok name := by
    rw [label, hplan.fields]
    rfl
  refine Writer.exists_run_of_isRead (fun out => ∃ s, out = .text s) nofun hplan ht
    (fun r _ op hop _ s => ?_)
    fun j outs houts negated isRoot => Prose.ends_joinGroup j negated isRoot houts
  have hrule : (writeRule plan r).FailsOnly fun _ => False := by
    refine failsOnly_writeRule (P := fun v => ∃ s, v = .text s) hplan.valueHook hop ?_ ?_ ?_
    · rw [hlabel]
      trivial
    · intro v
      unfold describe
      split
      · rw [hlabel]
        exact ⟨_, rfl⟩
      · exact ⟨_, rfl⟩
    · intro items hitems
      obtain ⟨ss, rfl⟩ := Value.exists_eq_map_text hitems
      rw [Value.texts_map]
      trivial
  exact (Writer.ends_lift_apply hrule s).bind fun output _ => ⟨_, rfl⟩

end

/-! ### Documents -/

/-- Whether a rule matches the text of its field against that of another. -/
def Rule.matchesField (r : Rule) : Bool := r.comparesFields && r.operator?.any Operator.isTextMatch

theorem Rule.matchesField_iff {r : Rule} :
    r.matchesField = true ↔
      r.comparesFields = true ∧ ∃ op, r.operator? = some op ∧ op.isTextMatch = true := by
  rw [matchesField, Bool.and_eq_true, Option.any_eq_true]

/-- The error of a rule that matches fields: the document of it cannot be written. -/
def Rule.NoDocument (r : Rule) (e : Error) : Prop :=
  r.matchesField = true ∧
    ∃ op, r.operator? = some op ∧ e = .unsupportedValue (.textAgainstField r.field op.name)

/-- Rules that are written one after another are each written at some point. -/
theorem Writer.exists_eq_ok_of_mem_writeRules {α : Type} {w : Writer α} {plan : FormatPlan}
    {rules : List (Path × Rule)} {s s' : Bindings} (h : w.writeRules plan rules s = .ok s')
    {e : Path × Rule} (he : e ∈ rules) :
    ∃ s₁ output, w.writeRule plan e.1 e.2 s₁ = .ok output := by
  obtain ⟨before, after, rfl⟩ := List.append_of_mem he
  rw [writeRules_append] at h
  obtain ⟨s₁, -, h⟩ := Result.bind_eq_ok h
  rw [writeRules, List.foldlM_cons] at h
  obtain ⟨s₂, hrule, -⟩ := Result.bind_eq_ok h
  obtain ⟨output, houtput, -⟩ := Result.map_eq_ok hrule
  exact ⟨s₁, output, houtput⟩

namespace Mongo

theorem writeRule_of_matchesField {r : Rule} (plan : FormatPlan) (h : r.matchesField = true) :
    ∃ e, writeRule plan r = .error e := by
  obtain ⟨hfields, op, hop, htext⟩ := Rule.matchesField_iff.mp h
  obtain ⟨-, hmember, hrange⟩ := Operator.of_isTextMatch htext
  have hcompare : fieldComparison op r =
      .error (.unsupportedValue (.textAgainstField r.field op.name)) := by
    simp only [fieldComparison, hmember, hrange, htext, if_true, Bool.false_eq_true, if_false]
  rw [writeRule, Language.ruleOperator, hop, Result.ok_bind, if_pos hfields, hcompare]
  exact ⟨_, rfl⟩

section
variable {plan : FormatPlan} (hplan : plan.IsUsual) {matching : Bool} {t : Node}
  (ht : t.IsRead matching)
include hplan ht

/-- Nothing but a rule that matches fields has no document. -/
theorem ends_run :
    (writer.run plan t).Ends (fun e => ∃ r ∈ t.rules, r.NoDocument e) fun _ => True := by
  suffices hrun : (writer.run plan t).Ends (fun e => ∃ r ∈ t.rules, r.NoDocument e)
      fun output => ∀ out ∈ output.1, True from hrun.mono (fun _ he => he) fun _ _ => trivial
  refine Writer.ends_run_of_isRead nofun hplan ht (fun r hr op hop _ s => ?_)
    fun j outs _ negated _ => ?_
  · obtain ⟨name, hname⟩ := (ht.of_mem_rules r hr).exists_field
    have hkey : r.field.requireKey.FailsOnly fun e => ∃ r ∈ t.rules, r.NoDocument e := by
      rw [hname]
      trivial
    refine Writer.ends_lift_apply (failsOnly_writeRule hplan.valueHook hop hkey
      fun hfields htext => ⟨r, hr, ?_, op, hop, rfl⟩) s
    exact Rule.matchesField_iff.mpr ⟨hfields, op, hop, htext⟩
  · obtain ⟨out, hout⟩ := exists_joinGroup_name j negated outs
    rw [show writer.combine (.text j.name) negated _ outs = _ from hout]
    trivial

/-- A tree with a rule that matches fields has no document. -/
theorem exists_run_eq_error {r : Rule} (hr : r ∈ t.rules) (hmatch : r.matchesField = true) :
    ∃ e, writer.run plan t = .error e := by
  obtain ⟨root, hroot, hstandard, hread, hrules⟩ := ht.exists_standardRoot
  have hjoins : writer.Joins plan (fun _ => True) (fun v => ∃ j : Junction, v = .text j.name)
      (fun _ => True) := by
    refine ⟨fun _ _ => trivial, fun {outs _} _ _ hknown negated _ => ?_⟩
    obtain ⟨j, rfl⟩ := hknown
    obtain ⟨out, hout⟩ := exists_joinGroup_name j negated outs
    exact ⟨out, hout, trivial⟩
  have htracks := hjoins.tracks hstandard (fun _ _ => trivial) hread.of_mem_combinators [] {}
  cases hrun : writer.run plan t with
  | error e => exact ⟨e, rfl⟩
  | ok output =>
    rw [Writer.run_of_not_validate _ _ hplan.validate, hroot, Result.ok_bind] at hrun
    have hwritten := htracks.writeRules_eq hrun
    obtain ⟨⟨path, r'⟩, he, rfl⟩ : ∃ e ∈ root.liveFrom [], e.2 = r := by
      rw [← hrules, ← hread.rules_liveFrom hstandard []] at hr
      exact List.mem_map.mp hr
    obtain ⟨op, hop⟩ := (ht.of_mem_rules _ hr).exists_operator
    obtain ⟨s, output', hrule⟩ := Writer.exists_eq_ok_of_mem_writeRules hwritten he
    rw [Writer.writeRule_of_isUsual (w := writer) nofun hplan hop] at hrule
    obtain ⟨e, hnone⟩ := writeRule_of_matchesField plan hmatch
    obtain ⟨hdocument, -⟩ := Writer.lift_apply_eq_ok hrule
    rw [hnone] at hdocument
    cases hdocument

end

end Mongo

/-! ### Parameters -/

theorem Sql.exists_bound (b : Binding) {matching : Bool} {t : Node} (ht : t.IsRead matching) :
    ∃ clause, bound b.dialect (b.plan (.usual b.dialect)) t = .ok clause := by
  have hplan : (Binding.unnumbered.plan (namedPerField (.usual b.dialect))).IsUsual :=
    ⟨⟨.parameterized, rfl, nofun⟩, rfl, rfl, rfl, rfl, rfl⟩
  obtain ⟨⟨draft, bindings⟩, hdraft⟩ := exists_run_draft hplan ht
  have hfields : ∀ r ∈ t.rules, ∃ name, r.field = .text name := fun r hr =>
    (ht.of_mem_rules r hr).exists_field
  exact ⟨_, bound_of_ok b rfl rfl (fun _ => rfl) (fun _ => hfields) hdraft⟩

/-! ### Interchange -/

theorem Node.IsRead.exists_toValue {matching : Bool} {t : Node} (ht : t.IsRead matching) :
    ∃ v, t.toValue true = .ok v := by
  obtain ⟨v, hv⟩ := exists_exchanges ht.isTree fun r hr => (ht.of_mem_rules r hr).source_eq
  exact ⟨v, hv.written⟩

/-! ### Queries -/

namespace Query
variable {t : Node}

section
variable {matching : Bool} (ht : t.IsRead matching)
include ht

theorem exists_format_json : ∃ s, format { format := .text "json" } t = .ok (.value (.text s)) := by
  obtain ⟨v, hv⟩ := ht.exists_toValue
  have hresolve : ({ format := .text "json" } : FormatOptions).resolve =
      .ok { style := { format := .json } } := rfl
  rw [format, hresolve, Result.ok_bind, ofInput_of_isTree ht.isTree, Result.ok_bind]
  dsimp only
  rw [writeJson, hv]
  exact ⟨_, rfl⟩

theorem exists_format {d : Dialect} (hqdrant : d ≠ .qdrant) (hmongodb : d ≠ .mongodb) :
    ∃ output, format { format := .text d.name } t = .ok output := by
  have hplan : (FormatPlan.usual d).IsUsual := FormatPlan.isUsual_usual hqdrant
  rw [format_eq_write (FormatOptions.resolve_name d) rfl ht.isTree]
  cases d with
  | qdrant => exact absurd rfl hqdrant
  | mongodb => exact absurd rfl hmongodb
  | sql =>
    obtain ⟨output, hrun⟩ := Sql.exists_run_plain hplan ht
    rw [write, Sql.plain, Writer.within_none, hrun]
    exact ⟨_, rfl⟩
  | parameterized =>
    obtain ⟨clause, hbound⟩ := Sql.exists_bound .unnumbered ht
    rw [write, show Sql.bound .parameterized (.usual .parameterized) t = _ from hbound]
    exact ⟨_, rfl⟩
  | parameterizedNamed =>
    obtain ⟨clause, hbound⟩ := Sql.exists_bound .named ht
    rw [write, show Sql.bound .parameterizedNamed (.usual .parameterizedNamed) t = _ from hbound]
    exact ⟨_, rfl⟩
  | jsonlogic =>
    obtain ⟨output, hrun⟩ := JsonLogic.exists_run hplan ht
    rw [write, JsonLogic.format, Writer.within_none, hrun]
    exact ⟨_, rfl⟩
  | cel =>
    obtain ⟨output, hrun⟩ := Language.exists_run hplan ht .cel nofun
    rw [write, Language.format, Writer.within_none, hrun]
    exact ⟨_, rfl⟩
  | spel =>
    obtain ⟨output, hrun⟩ := Language.exists_run hplan ht .spel nofun
    rw [write, Language.format, Writer.within_none, hrun]
    exact ⟨_, rfl⟩
  | naturalLanguage =>
    obtain ⟨output, hrun⟩ := Prose.exists_run hplan ht
    rw [write, Prose.format, Writer.within_none, hrun]
    exact ⟨_, rfl⟩

/-- As a document a tree is written unless a rule in it matches fields. -/
theorem format_mongodb :
    (∃ v, (∀ r ∈ t.rules, r.matchesField = false) ∧
      format { format := .text "mongodb" } t = .ok (.value v)) ∨
    ∃ r ∈ t.rules, ∃ e, r.NoDocument e ∧ format { format := .text "mongodb" } t = .error e := by
  have hplan : (FormatPlan.usual .mongodb).IsUsual := FormatPlan.isUsual_usual nofun
  have hformat : format { format := .text "mongodb" } t =
      (Mongo.format (.usual .mongodb) t).map .value :=
    format_eq_write (FormatOptions.resolve_name .mongodb) rfl ht.isTree
  have hends := Mongo.ends_run hplan ht
  rw [hformat, Mongo.format, Writer.within_none]
  cases hrun : Mongo.writer.run (.usual .mongodb) t with
  | ok output =>
    refine .inl ⟨_, fun r hr => ?_, rfl⟩
    cases hmatch : r.matchesField with
    | false => rfl
    | true =>
      obtain ⟨e, herror⟩ := Mongo.exists_run_eq_error hplan ht hr hmatch
      rw [hrun] at herror
      cases herror
  | error e =>
    rw [hrun] at hends
    obtain ⟨r, hr, hnone⟩ := hends
    exact .inr ⟨r, hr, e, hnone, rfl⟩

end

/-- **Translation.**  Whatever is read, in whatever dialect and with whatever options, can
be written with default options in every format but that of search filters.  Documents alone
have no form for a rule that matches fields, and a tree with one is refused for its value. -/
theorem translate_of_parse {source : Source} {dialect : Value} {input : OptionsInput ParseOptions}
    {overrides : List (String × OptionValue)} (h : parse source dialect input overrides = .ok t) :
    (∀ name ∈ ["json", "sql", "parameterized", "parameterized_named", "jsonlogic", "cel", "spel",
        "natural_language"], ∃ output, format { format := .text name } t = .ok output) ∧
      ((∀ r ∈ t.rules, r.matchesField = false) →
        ∃ output, format { format := .text "mongodb" } t = .ok output) ∧
      ((∃ r ∈ t.rules, r.matchesField = true) →
        ∃ fault, format { format := .text "mongodb" } t = .error (.unsupportedValue fault)) := by
  obtain ⟨entry, -, ht⟩ := exists_isRead_of_parse h
  have hdialect (d : Dialect) (hqdrant : d ≠ .qdrant) (hmongodb : d ≠ .mongodb) :
      ∃ output, format { format := .text d.name } t = .ok output :=
    exists_format ht hqdrant hmongodb
  have hdocument := format_mongodb ht
  refine ⟨?_, fun hnone => ?_, fun ⟨r, hr, hmatch⟩ => ?_⟩
  · simp only [List.forall_mem_cons]
    obtain ⟨s, hjson⟩ := exists_format_json ht
    exact ⟨⟨_, hjson⟩, hdialect .sql nofun nofun, hdialect .parameterized nofun nofun,
      hdialect .parameterizedNamed nofun nofun, hdialect .jsonlogic nofun nofun,
      hdialect .cel nofun nofun, hdialect .spel nofun nofun,
      hdialect .naturalLanguage nofun nofun, nofun⟩
  · rcases hdocument with ⟨v, -, hwritten⟩ | ⟨r, hr, e, ⟨hmatch, -⟩, -⟩
    · exact ⟨_, hwritten⟩
    · rw [hnone r hr] at hmatch
      cases hmatch
  · rcases hdocument with ⟨v, hnone, -⟩ | ⟨r, hr, e, ⟨-, op, -, rfl⟩, hrefused⟩
    · rw [hnone r hr] at hmatch
      cases hmatch
    · exact ⟨_, hrefused⟩

/-- The condition that one field has the text of another in it, or is not one. -/
def matchingSpecimen : Value :=
  .map [("or", .list [.map [("in", .list [.map [("var", .text "b")], .map [("var", .text "a")]])],
    .map [("!=", .list [.map [("var", .text "a")], .int 1])]])]

theorem translate_of_parse_specimen :
    ∃ t, parse (.value matchingSpecimen) (.text "jsonlogic") .defaults [] = .ok t ∧
      (∃ r ∈ t.rules, r.matchesField = true) ∧
      (∃ output, format { format := .text "parameterized_named" } t = .ok output) ∧
      ∃ fault, format { format := .text "mongodb" } t = .error (.unsupportedValue fault) := by
  obtain ⟨t, hparse, hmatch⟩ : ∃ t,
      parse (.value matchingSpecimen) (.text "jsonlogic") .defaults [] = .ok t ∧
        ∃ r ∈ t.rules, r.matchesField = true :=
    ⟨.group (.text "or") {}
      [.rule (.ofFields "a" .contains (.text "b")), .rule (.of "a" .ne (.int 1))],
      rfl, _, List.mem_cons_self, rfl⟩
  obtain ⟨hformats, -, hdocument⟩ := translate_of_parse hparse
  exact ⟨t, hparse, hmatch, hformats _ (by simp), hdocument hmatch⟩

end Query
end RuleTree
