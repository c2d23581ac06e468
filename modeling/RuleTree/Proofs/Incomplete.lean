import RuleTree.Proofs.Clauses

/-! # Incomplete rules

A rule that takes several values is incomplete where its list has no item or its range lacks
a bound.  The validator reports such a rule, and each writer of rules tests for it on its
own: they all leave the rule out, and bind nothing for it, exactly where the validator finds
a value missing (`Query.leavesOut_iff_emptyValue`).  The one writer that does not agree is
that of documents, which lists other fields without asking whether there are any.
-/
namespace RuleTree

/-- An operator that takes several values. -/
def Operator.isMulti (op : Operator) : Bool := op.isMembership || op.isRange

theorem Operator.isMulti_of_isRange {op : Operator} (h : op.isRange = true) :
    op.isMulti = true := by
  rw [isMulti, h, Bool.or_true]

/-- Default options but for a source of names. -/
def FormatPlan.naming (names : NameSource) (dialect : Dialect) : FormatPlan :=
  { FormatPlan.usual dialect with names := .given names }

/-- What is written of a rule says nothing and binds no parameter. -/
def Query.Output.isNothing : Output → Bool
  | .value v => v.isNothing
  | .bound b => b.sql.isNothing && b.params.isNothing
  | .filter f => f.isEmpty

/-! ### The validator -/

/-- Of a rule without a configured field, only the operator and the value are judged. -/
theorem Validator.validateRule_of_no_fields {r : Rule} {name : String} {op : Operator}
    (hfield : r.field = .text name) (hop : r.operator? = some op) :
    ({} : Validator).validateRule r =
      .ok (Validity.ofReasons (if missesValue op r.value then [.emptyValue] else [])) := by
  have hfind : FieldTable.find? [] r.field = .ok none := by
    rw [hfield]
    rfl
  have hreasons : operatorReasons r none =
      .ok (if missesValue op r.value then [.emptyValue] else []) := by
    rw [operatorReasons, hop]
    rfl
  rw [validateRule, hfind, Result.ok_bind, hreasons]
  cases missesValue op r.value <;> rfl

/-- A rule that takes several values is reported where it has none to take. -/
theorem Validator.emptyValue_mem_iff {r : Rule} {name : String} {op : Operator}
    (hfield : r.field = .text name) (hop : r.operator? = some op) :
    (∃ validity, ({} : Validator).validateRule r = .ok validity ∧
      .emptyValue ∈ validity.reasons) ↔ missesValue op r.value = true := by
  rw [validateRule_of_no_fields hfield hop]
  cases missesValue op r.value <;> simp [Validity.ofReasons]

/-- The writers leave out what the validator reports, but for the lists of other fields in
documents. -/
theorem Dialect.skips_iff_missesValue {d : Dialect} {r : Rule} {op : Operator}
    (hop : r.operator? = some op) (hmulti : op.isMulti = true)
    (hlist : d = .mongodb → op.isMembership = true → r.comparesFields = false) :
    d.skips r = true ↔ Validator.missesValue op r.value = true := by
  have htakes : op.takesValue = true := by cases op <;> first | rfl | cases hmulti
  unfold Validator.missesValue
  simp only [htakes, Bool.not_true, Bool.false_eq_true, if_false]
  by_cases hmember : op.isMembership = true
  · rw [if_pos hmember, skips_of_isMembership hop hmember fun hd => hlist hd hmember,
      List.isEmpty_iff]
  · have hrange : op.isRange = true := by
      rw [Operator.isMulti, Bool.or_eq_true] at hmulti
      exact hmulti.resolve_left hmember
    rw [if_neg hmember, if_pos hrange, skips_of_isRange hop hrange, Option.isNone_iff_eq_none]

/-! ### Conditions with parameters -/

namespace Sql

/-- What starts with a text is not empty. -/
theorem Skeleton.fill_text_ne_empty {s : String} (hs : s ≠ "") (rest : List Piece)
    (marks : List String) : fill (.text s :: rest) marks ≠ "" := by
  rw [fill]
  simp [hs]

/-- The pieces of a rule with values are a condition. -/
theorem render_skeletonOf_ne_empty {style : Style} {op : Operator} {r : Rule} {s : String}
    (hmulti : op.isMulti = true) (hs : s ≠ "") (marks : List String) :
    (skeletonOf style op (Dialect.sqlSpelling op) r (.text s)).render marks ≠ "" := by
  have htruthy : (Value.text s).truthy = true := by simp [Value.truthy, hs]
  have hnull : op.isNullCheck = false := by cases op <;> first | rfl | cases hmulti
  obtain ⟨c, hc, hblank⟩ := sqlSpelling_not_blank op
  unfold skeletonOf
  simp only [htruthy, hnull, Bool.not_true, Bool.and_false, Bool.false_eq_true, if_false]
  split
  · -- other fields stand as they are, and only outer blanks are dropped
    exact Text.trim_ne_empty ⟨c, by simp [Skeleton.fill, hc], hblank⟩
  split
  · exact Skeleton.fill_text_ne_empty (by simp) _ _
  split
  · exact Skeleton.fill_text_ne_empty (by simp) _ _
  · rename_i hmember hrange
    exact absurd hmulti (by simp [Operator.isMulti, hmember, hrange])

/-- A row of names is given unless the source of names fails. -/
theorem ends_parameterNames {plan : FormatPlan} {names : NameSource}
    (hnames : plan.names = .given names) (field : Value) (asked : List Value) (count : Nat) :
    (parameterNames plan field asked count).Ends
      (fun _ => count ≠ 0 ∧ ∃ field earlier e, names field earlier = .error e)
      fun _ => True := by
  have hrow (fields asked : List Value) : (names.namesFor asked fields).Ends
      (fun _ => ∃ field earlier e, names field earlier = .error e) fun _ => True := by
    induction fields generalizing asked with
    | nil => exact Result.ends_ok trivial
    | cons field fields ih =>
      rw [NameSource.namesFor]
      refine Result.Ends.bind (P := fun _ => True) ?_ fun name _ =>
        (ih (field :: asked)).bind fun _ _ => Result.ends_ok trivial
      cases hname : names field asked with
      | ok name => exact Result.ends_ok trivial
      | error e => exact Result.ends_error ⟨field, asked, e, hname⟩
  cases count with
  | zero => exact Result.ends_ok trivial
  | succ count =>
    unfold parameterNames
    rw [hnames]
    exact (hrow _ asked).mono (fun _ he => ⟨Nat.succ_ne_zero _, he⟩) fun _ h => h

/-- A condition with parameters is empty, and binds none, only where a rule is left out. -/
theorem ends_boundRule_skips (b : Binding) (plan : FormatPlan) {names : NameSource} {r : Rule}
    {op : Operator} (hhook : plan.valueHook = .absent) (hnames : plan.names = .given names)
    (hop : r.operator? = some op) (hmulti : op.isMulti = true) (context : Option RuleContext)
    (asked : List Value) :
    (boundRule (b.plan plan) r context asked).Ends
      (fun _ => ¬b.dialect.skips r = true ∧ ∃ field earlier e, names field earlier = .error e)
      fun out => (Query.Output.bound out.1).isNothing = true ↔ b.dialect.skips r = true := by
  have hdialect : b.dialect ≠ .mongodb := by cases b <;> decide
  have hvalue : (valueText r plan.style).Ends (fun _ => False)
      fun s => s = "" ↔ b.dialect.skips r = true := by
    by_cases hmember : op.isMembership = true
    · rw [Dialect.skips_of_isMembership hop hmember fun h => absurd h hdialect]
      exact ends_valueText_of_isMembership hop _ hmember
    · have hrange : op.isRange = true := by
        rw [Operator.isMulti, Bool.or_eq_true] at hmulti
        exact hmulti.resolve_left hmember
      rw [Dialect.skips_of_isRange hop hrange]
      exact ends_valueText_of_isRange hop _ hrange
  obtain ⟨s, hs, hempty⟩ := hvalue.exists_eq_ok
  rw [boundRule, ruleSkeleton_plan b hop hhook, hs, Except.map, Result.ok_bind]
  dsimp only
  by_cases hnone : s = ""
  · -- no pieces, and so no parameters
    have hskeleton : skeletonOf plan.style op (Dialect.sqlSpelling op) r (.text s) =
        .ofText "" := by
      have hmissing : (op.isMembership || op.isRange) = true := hmulti
      rw [skeletonOf, hmissing, hnone]
      rfl
    rw [hskeleton]
    split
    · exact Result.ends_ok (iff_of_true rfl (hempty.mp hnone))
    · exact Result.ends_ok (iff_of_true rfl (hempty.mp hnone))
  · have hclause (marks : List String) (params : Value) :
        ¬(Query.Output.bound ⟨.text ((skeletonOf plan.style op (Dialect.sqlSpelling op) r
          (.text s)).render marks), params⟩).isNothing = true := by
      have hrender : (skeletonOf plan.style op (Dialect.sqlSpelling op) r (.text s)).render marks
          ≠ "" := render_skeletonOf_ne_empty hmulti hnone marks
      simp [Query.Output.isNothing, Value.isNothing, hrender]
    have hkept : ¬b.dialect.skips r = true := fun hskip => hnone (hempty.mpr hskip)
    split
    · exact Result.ends_ok (iff_of_false (hclause _ _) hkept)
    · refine ((ends_parameterNames hnames r.field asked _).mono (fun _ he => ⟨hkept, he.2⟩)
        fun _ h => h).bind fun ms _ => ?_
      exact Result.ends_ok (iff_of_false (hclause _ _) hkept)

end Sql

/-! ### Sentences -/

/-- A clause is empty only where a rule is left out. -/
theorem Prose.ends_writeRule_skips {r : Rule} {op : Operator} (hop : r.operator? = some op)
    (hmulti : op.isMulti = true) :
    (writeRule (.usual .naturalLanguage) r).Ends (fun _ => False) fun s =>
      s = "" ↔ Dialect.naturalLanguage.skips r = true := by
  have hdescribe (v : Value) :
      ∃ s, describe (FormatPlan.usual .naturalLanguage).style r v = .ok (.text s) := by
    unfold describe
    split <;> exact ⟨_, rfl⟩
  have hitems (vs : List Value) :
      ∃ ss, vs.mapM (describe (FormatPlan.usual .naturalLanguage).style r) = .ok (ss.map .text) ∧
        (ss = [] ↔ vs = []) := by
    induction vs with
    | nil => exact ⟨[], rfl, iff_of_true rfl rfl⟩
    | cons v vs ih =>
      obtain ⟨s, hs⟩ := hdescribe v
      obtain ⟨ss, hss, -⟩ := ih
      refine ⟨s :: ss, ?_, iff_of_false (List.cons_ne_nil _ _) (List.cons_ne_nil _ _)⟩
      rw [List.mapM_cons, hs, Result.ok_bind, hss]
      rfl
  have hnull : op.isNullCheck = false := by cases op <;> first | rfl | cases hmulti
  have hlabel : label (FormatPlan.usual .naturalLanguage).style.fields r.field = .ok r.field := rfl
  rw [writeRule, Language.ruleOperator, hop, Result.ok_bind, hlabel, Result.ok_bind]
  dsimp only
  rw [hnull, if_neg Bool.false_ne_true, FormatPlan.suppliedValue_of_absent rfl, Result.ok_bind]
  dsimp only
  unfold ownRule
  by_cases hmember : op.isMembership = true
  · rw [if_pos hmember, Dialect.skips_of_isMembership hop hmember (by rintro ⟨⟩)]
    obtain ⟨ss, hss, hnone⟩ := hitems r.value.toItems
    rw [hss, Result.ok_bind, ← hnone]
    cases ss with
    | nil => exact Result.ends_ok (iff_of_true rfl rfl)
    | cons s ss =>
      have htexts : Value.texts (.text s :: ss.map .text) = .ok (s :: ss) :=
        Value.texts_map (s :: ss)
      rw [List.map_cons]
      dsimp only
      rw [htexts, Result.ok_bind]
      exact Result.ends_ok (iff_of_false (by simp) (List.cons_ne_nil _ _))
  · have hrange : op.isRange = true := by
      rw [Operator.isMulti, Bool.or_eq_true] at hmulti
      exact hmulti.resolve_left hmember
    rw [if_neg hmember, if_pos hrange, Dialect.skips_of_isRange hop hrange]
    cases r.value.bounds? with
    | none => exact Result.ends_ok (iff_of_true rfl rfl)
    | some bounds =>
      obtain ⟨low, hlow⟩ := hdescribe bounds.1
      obtain ⟨high, hhigh⟩ := hdescribe bounds.2
      dsimp only
      rw [hlow, Result.ok_bind, hhigh, Result.ok_bind]
      exact Result.ends_ok (iff_of_false (by simp) (Option.some_ne_none _))

/-! ### All of them -/

namespace Query

/-- A dialect's own way to write a rule, with names for the parameters. -/
def writeRuleNaming (names : NameSource) (d : Dialect) (r : Rule) (context : Option RuleContext) :
    Result Output :=
  writeRule d (.naming names d) r context

/-- What is written of a rule is nothing exactly if the dialect leaves the rule out.  Writing
one that it does not leave out may fail with the source of names, and not otherwise. -/
def Leaves (names : NameSource) (d : Dialect) (r : Rule) : Result Output → Prop :=
  Result.Ends (fun _ => ¬d.skips r = true ∧ ∃ field earlier e, names field earlier = .error e)
    fun out => out.isNothing = true ↔ d.skips r = true

theorem leaves_text {names : NameSource} {d : Dialect} {r : Rule} {x : Result String}
    (h : x.Ends (fun _ => False) fun s => s = "" ↔ d.skips r = true) :
    Leaves names d r (x.map fun s => .value (.text s)) := by
  refine (h.mono (fun _ he => he.elim) fun _ hs => hs).map fun s hs => ?_
  simpa [Output.isNothing, Value.isNothing] using hs

theorem leaves_entry {names : NameSource} {d : Dialect} {r : Rule} {x : Result Value}
    {nothing : Value} (hnothing : nothing.isNothing = true)
    (h : x.Ends (fun _ => False) (d.HasEntry r nothing)) : Leaves names d r (x.map .value) := by
  refine (h.mono (fun _ he => he.elim) fun _ hout => hout).map fun out hout => ?_
  exact hout.isNothing_iff hnothing

section
variable {r : Rule} {op : Operator} {name : String} (hfield : r.field = .text name)
  (hop : r.operator? = some op) (hmulti : op.isMulti = true)
include hop hmulti

/-- No text is matched where several values are taken. -/
theorem not_matchesField_of_isMulti : ¬r.matchesField = true := by
  rw [Rule.matchesField_iff]
  rintro ⟨-, op', hop', hmatch⟩
  obtain rfl := Option.some.inj (hop.symm.trans hop')
  cases op <;> first | (cases hmatch; done) | cases hmulti

include hfield

/-- The document of a rule with several values is empty where the rule is left out. -/
theorem ends_document_skips : (Mongo.writeRule (.usual .mongodb) r).Ends (fun _ => False)
    (Dialect.mongodb.HasEntry r (.map [])) :=
  (Mongo.ends_writeRule_skips hop hfield).mono
    (fun _ he => absurd he (not_matchesField_of_isMulti hop hmulti)) fun _ hout => hout

theorem leaves_writeRuleNaming (names : NameSource) {d : Dialect} (hd : d ≠ .qdrant)
    (context : Option RuleContext) : Leaves names d r (writeRuleNaming names d r context) := by
  cases d with
  | sql => exact leaves_text (Sql.ends_plainRule_skips hop)
  | parameterized =>
    refine (Sql.ends_boundRule_skips .unnumbered (.naming names .parameterized) rfl rfl hop hmulti
      context []).map ?_
    exact fun _ hout => hout
  | parameterizedNamed =>
    refine (Sql.ends_boundRule_skips .named (.naming names .parameterizedNamed) rfl rfl hop hmulti
      context []).map ?_
    exact fun _ hout => hout
  | mongodb => exact leaves_entry rfl (ends_document_skips hfield hop hmulti)
  | jsonlogic => exact leaves_entry rfl (JsonLogic.ends_writeRule_skips hop)
  | cel =>
    exact leaves_text (Language.ends_writeRule_skips (l := .cel) hop (by decide) (by decide)
      fun field items negated => by cases negated <;> simp [Language.cel])
  | spel =>
    exact leaves_text (Language.ends_writeRule_skips (l := .spel) hop (by decide) (by decide)
      fun field items negated => by cases negated <;> simp [Language.spel])
  | naturalLanguage => exact leaves_text (Prose.ends_writeRule_skips hop hmulti)
  | qdrant => exact absurd rfl hd

/-- **Incomplete rules.**  A rule that takes several values is left out, with no parameter
bound, exactly if the validator finds its value missing; otherwise it is written, if the
source of names does not fail.  Only a document lists other fields where there are none to
list. -/
theorem leavesOut_iff_emptyValue (names : NameSource) (context : Option RuleContext) :
    (∀ d : Dialect, d ≠ .qdrant →
      (d = .mongodb → op.isMembership = true → r.comparesFields = false) →
      ((∃ out, writeRuleNaming names d r context = .ok out ∧ out.isNothing = true) ↔
        ∃ validity, ({} : Validator).validateRule r = .ok validity ∧
          .emptyValue ∈ validity.reasons) ∧
      ((∀ field earlier, ∃ given, names field earlier = .ok given) →
        ∃ out, writeRuleNaming names d r context = .ok out)) ∧
    (op.isMembership = true → r.comparesFields = true →
      ∃ out, writeRuleNaming names .mongodb r context = .ok out ∧ out.isNothing = false) := by
  refine ⟨fun d hd hlist => ?_, fun hmember hfields => ?_⟩
  · have hleaves := leaves_writeRuleNaming hfield hop hmulti names hd context
    rw [Validator.emptyValue_mem_iff hfield hop, ← Dialect.skips_iff_missesValue hop hmulti hlist]
    cases hout : writeRuleNaming names d r context with
    | ok out =>
      rw [hout] at hleaves
      have hnothing : out.isNothing = true ↔ d.skips r = true := hleaves
      exact ⟨by simpa using hnothing, fun _ => ⟨out, rfl⟩⟩
    | error e =>
      rw [hout] at hleaves
      obtain ⟨hkept, field, earlier, e', he⟩ := hleaves
      refine ⟨iff_of_false (by simp) hkept, fun hnames => ?_⟩
      obtain ⟨given, hgiven⟩ := hnames field earlier
      rw [hgiven] at he
      cases he
  · obtain ⟨out, hout, hentry⟩ := (ends_document_skips hfield hop hmulti).exists_eq_ok
    have hkept : ¬Dialect.mongodb.skips r = true := by
      rw [Dialect.skips, hop, Option.any_some, hfields, Operator.isRange_of_isMembership hmember]
      simp
    rcases hentry with ⟨-, hskip⟩ | ⟨⟨e, rfl⟩, -⟩
    · exact absurd hskip hkept
    · refine ⟨.value (.map [e]), ?_, rfl⟩
      show (Mongo.writeRule (.usual .mongodb) r).map _ = _
      rw [hout]
      rfl

end

/-- The rule that `a` lies between `b` and nothing. -/
def halfRange : Rule := .ofFields "a" .between (.text "b,")

theorem leavesOut_iff_emptyValue_halfRange :
    (∃ validity, ({} : Validator).validateRule halfRange = .ok validity ∧
      .emptyValue ∈ validity.reasons) ∧
    (∃ out, writeRuleNaming .perField .mongodb halfRange none = .ok out ∧
      out.isNothing = true) ∧
    ∃ out, writeRuleNaming .perField .parameterizedNamed halfRange none = .ok out ∧
      out.isNothing = true := by
  have hreported : ∃ validity, ({} : Validator).validateRule halfRange = .ok validity ∧
      .emptyValue ∈ validity.reasons := ⟨⟨false, [.emptyValue]⟩, rfl, List.mem_cons_self⟩
  have hfield : halfRange.field = .text "a" := rfl
  have hop : halfRange.operator? = some .between := rfl
  obtain ⟨hagree, -⟩ := leavesOut_iff_emptyValue hfield hop rfl .perField none
  exact ⟨hreported, (hagree .mongodb (by decide) nofun).1.mpr hreported,
    (hagree .parameterizedNamed (by decide) nofun).1.mpr hreported⟩

/-- The rule that `a` is one of no other fields. -/
def noFields : Rule := .ofFields "a" .isIn (.list [])

/-- The validator reports a list of no fields, and plain SQL leaves it out, but a document
asks whether the field is in it. -/
theorem leavesOut_iff_emptyValue_noFields :
    ({} : Validator).validateRule noFields = .ok ⟨false, [.emptyValue]⟩ ∧
    writeRule .sql (.usual .sql) noFields none = .ok (.value (.text "")) ∧
    writeRule .mongodb (.usual .mongodb) noFields none =
      .ok (.value (.map [("$expr", .map [("$in", .list [.text "$a", .list []])])])) :=
  ⟨rfl, rfl, rfl⟩

end Query
end RuleTree
