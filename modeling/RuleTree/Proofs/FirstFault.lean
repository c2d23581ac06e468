import RuleTree.Proofs.Translation

/-! # The first fault

SQL and prose have a form for every rule, whatever its value: where no function of the caller
has a say, a tree is refused only for a field that is not configured, an operator that there
is not, or an integer with more digits than are read or written (`Rule.fault?`).  The error is
that of the first rule with such a fault, in the order of the walk and with its path; rules that
are disabled, or in a disabled group, are not looked at (`Query.format_first_fault`).

A rule is written, or refused for its fault (`Writer.writeRule_endsBy`); from one rule to the
row of those that are written goes `Writer.writeRules_endsBy`, where an invariant of the
bindings sees to it that no parameter gets a name for the second time; and joining what they
give fails nowhere, so that the tree ends as this row does (`Writer.Joins.run_endsBy`).
-/
namespace RuleTree

/-! ### Ending by a fault -/

/-- What a step is refused for. -/
def Result.fault? {α : Type} : Result α → Option Error
  | .ok _ => none
  | .error e => some e

/-- A step has a result if there is no fault, and is refused for the fault otherwise. -/
inductive Result.EndsBy {α : Type} (P : α → Prop) : Option Error → Result α → Prop where
  | error (e : Error) : EndsBy P (some e) (.error e)
  | ok {a : α} : P a → EndsBy P none (.ok a)

namespace Result.EndsBy
variable {α β : Type} {P : α → Prop} {R : β → Prop} {fault : Option Error} {x : Result α}

/-- After a step without a fault comes the next one, which may have one. -/
theorem andThen {f : α → Result β} {next : Option Error} (h : x.EndsBy P fault)
    (hnext : ∀ a, P a → (f a).EndsBy R next) : (x >>= f).EndsBy R (fault.or next) := by
  cases h with
  | error e => exact .error e
  | ok ha => exact hnext _ ha

/-- What is done with a result cannot fail. -/
theorem bind {f : α → Result β} (h : x.EndsBy P fault) (hnext : ∀ a, P a → (f a).EndsBy R none) :
    (x >>= f).EndsBy R fault := by
  cases h with
  | error e => exact .error e
  | ok ha => exact hnext _ ha

theorem map {f : α → β} (h : x.EndsBy P fault) (hnext : ∀ a, P a → R (f a)) :
    EndsBy R fault (x.map f) := by
  cases h with
  | error e => exact .error e
  | ok ha => exact .ok (hnext _ ha)

theorem mono {P' : α → Prop} (h : x.EndsBy P fault) (hok : ∀ a, P a → P' a) :
    x.EndsBy P' fault := by
  cases h with
  | error e => exact .error e
  | ok ha => exact .ok (hok _ ha)

/-- What holds of a result holds where it is one. -/
theorem with_eq (h : x.EndsBy P fault) : x.EndsBy (fun a => x = .ok a ∧ P a) fault := by
  cases h with
  | error e => exact .error e
  | ok ha => exact .ok ⟨rfl, ha⟩

theorem of_exists (h : ∃ a, x = .ok a ∧ P a) : x.EndsBy P none := by
  obtain ⟨a, rfl, ha⟩ := h
  exact .ok ha

/-- A result is refused for the error that it is. -/
theorem of_fault? (x : Result α) : x.EndsBy (fun _ => True) x.fault? := by
  cases x with
  | error e => exact .error e
  | ok a => exact .ok trivial

/-- The errors are the faults. -/
theorem eq_error_iff (h : x.EndsBy P fault) {e : Error} : x = .error e ↔ fault = some e := by
  cases h with
  | error e' =>
    exact ⟨fun he => congrArg some (Except.error.inj he), fun he => congrArg _ (Option.some.inj he)⟩
  | ok => exact ⟨nofun, nofun⟩

/-- There is a result if there is no fault. -/
theorem exists_eq_ok_iff (h : x.EndsBy P fault) : (∃ a, x = .ok a) ↔ fault = none := by
  cases h with
  | error e' => exact ⟨nofun, nofun⟩
  | ok => exact ⟨fun _ => rfl, fun _ => ⟨_, rfl⟩⟩

theorem worded (h : x.EndsBy P fault) (limit : DigitLimit) :
    (limit.worded x).EndsBy P (fault.map limit.word) := by
  cases h with
  | error e => cases limit <;> exact .error _
  | ok ha => cases limit <;> exact .ok ha

end Result.EndsBy

/-! ### Fields -/

/-- A field with texts for its attributes. -/
structure Field.IsTyped (f : Field) : Prop where
  name : ∃ s, f.name = .text s
  label : f.label = .null ∨ ∃ s, f.label = .text s
  datatype : f.datatype = .null ∨ ∃ s, f.datatype = .text s
  inputType : f.inputType = .null ∨ ∃ s, f.inputType = .text s

section
variable {f : Field} (h : f.IsTyped)
include h

theorem Field.IsTyped.exists_displayLabel : ∃ s, f.displayLabel = .text s := by
  unfold displayLabel
  split
  case isTrue htruthy =>
    rcases h.label with hlabel | hlabel
    · rw [hlabel] at htruthy
      cases htruthy
    · exact hlabel
  case isFalse => exact h.name

theorem Field.IsTyped.exists_isNumeric : ∃ numeric, f.isNumeric = .ok numeric := by
  have hlower (v : Value) (hv : v = .null ∨ ∃ s, v = .text s) : ∃ s, lowerAttribute v = .ok s := by
    unfold lowerAttribute
    rcases hv with rfl | ⟨s, rfl⟩
    · exact ⟨_, rfl⟩
    · split <;> exact ⟨_, rfl⟩
  obtain ⟨datatype, hdatatype⟩ := hlower _ h.datatype
  obtain ⟨inputType, hinput⟩ := hlower _ h.inputType
  rw [isNumeric, hdatatype, hinput, Result.ok_bind]
  split <;> exact ⟨_, rfl⟩

end

/-- The field of a text is looked up without an error. -/
theorem FieldTable.find?_text (table : FieldTable) (name : String) :
    table.find? (.text name) =
      .ok ((List.find? (fun entry => entry.1.equals (.text name)) table).map (·.2)) := rfl

theorem FieldTable.exists_find? {table : FieldTable} (h : ∀ entry ∈ table, entry.2.IsTyped)
    (name : String) :
    ∃ field, table.find? (.text name) = .ok field ∧ ∀ f ∈ field, f.IsTyped := by
  refine ⟨_, table.find?_text name, ?_⟩
  cases hentry : List.find? (fun entry => entry.1.equals (.text name)) table with
  | none => simp
  | some entry => simpa using h entry (List.mem_of_find?_eq_some hentry)

/-- What the field of a rule at a path is refused for: that fields are configured and it is not. -/
def FieldTable.fault? (fields : FieldTable) (e : Path × Rule) : Option Error :=
  if !fields.isEmpty && !fields.any (fun entry => entry.1.equals e.2.field) then
    some (.unknownField e.2.field e.1)
  else none

/-- What the operator of a rule at a path is refused for: that there is no such operator. -/
def Rule.operatorFault? (d : Dialect) (e : Path × Rule) : Option Error :=
  if e.2.operator?.isNone then some (.unsupportedOperator e.2.operator (.text d.name) (some e.1))
  else none

/-- The plan for a rule, with the policy that its field has. -/
def FormatPlan.planOf (plan : FormatPlan) (r : Rule) : FormatPlan :=
  { plan with style := { plan.style with policy := plan.policyOf r } }

/-- What a rule at a path is refused for: its field, or else its operator, or else the digits
of an integer. -/
def Rule.fault? (limit : DigitLimit) (d : Dialect) (plan : FormatPlan) (e : Path × Rule) :
    Option Error :=
  (plan.style.fields.fault? e).or ((operatorFault? d e).or
    (limit.check (Query.ruleConversions d (plan.planOf e.2) e.2)).fault?)

/-! ### Rules -/

namespace Writer
variable {α : Type} {w : Writer α} {plan : FormatPlan} {r : Rule} {path : Path} {s : Bindings}

/-- The configuration of a field is found, unless that is what is wrong. -/
theorem fieldOf_endsBy (htyped : ∀ entry ∈ plan.style.fields, entry.2.IsTyped)
    (hname : ∃ name, r.field = .text name) :
    (plan.fieldOf r path).EndsBy (fun field => ∀ f ∈ field, f.IsTyped)
      (plan.style.fields.fault? (path, r)) := by
  obtain ⟨name, hname⟩ := hname
  obtain ⟨field, hfind, hfield⟩ := FieldTable.exists_find? htyped name
  unfold FormatPlan.fieldOf FieldTable.fault?
  cases hempty : plan.style.fields.isEmpty with
  | true => exact .ok (by simp)
  | false =>
    simp only [hname, hfind]
    rw [FieldTable.find?_text] at hfind
    obtain rfl := Except.ok.inj hfind
    cases hentry : List.find? (fun entry => entry.1.equals (.text name)) plan.style.fields with
    | none =>
      have hnone : plan.style.fields.any (fun entry => entry.1.equals (.text name)) = false :=
        List.any_eq_false.mpr (List.find?_eq_none.mp hentry)
      rw [hnone]
      exact .error _
    | some entry =>
      have hequals : entry.1.equals (.text name) = true := by simpa using List.find?_some hentry
      have hsome : plan.style.fields.any (fun entry => entry.1.equals (.text name)) = true :=
        List.any_eq_true.mpr ⟨entry, List.mem_of_find?_eq_some hentry, hequals⟩
      rw [hsome]
      rw [hentry] at hfield
      exact .ok hfield

/-- The writer under a limit of the digits. -/
abbrev limited (w : Writer α) (limit : DigitLimit) (joining : Value → List Conversion) : Writer α :=
  w.within limit (Query.ruleConversions w.dialect) joining

section
variable (w) (limit : DigitLimit) (joining : Value → List Conversion)

theorem write_limited (r : Rule) (context : Option RuleContext) (s : Bindings) :
    (w.limited limit joining).write plan r context s =
      limit.check (Query.ruleConversions w.dialect plan r) >>= fun _ =>
        w.write plan r context s := by
  cases limit with
  | none => rfl
  | some digits => exact Write.lift_bind _ _ s

theorem combine_limited (combinator : Value) (negated isRoot : Bool) (outs : List α) :
    (w.limited limit joining).combine combinator negated isRoot outs =
      limit.check (joining combinator) >>= fun _ =>
        w.combine combinator negated isRoot outs := by
  cases limit <;> rfl

theorem canExpress_limited (r : Rule) :
    (w.limited limit joining).canExpress r = w.canExpress r := by
  cases limit <;> rfl

theorem dialect_limited : (w.limited limit joining).dialect = w.dialect := by
  cases limit <;> rfl

end

/-- **Rules.**  A rule is refused for its fault; without one it is written by the dialect. -/
theorem writeRule_endsBy {Q : α × Bindings → Prop} (limit : DigitLimit)
    (joining : Value → List Conversion) (hw : w.dialect ≠ .qdrant)
    (hhook : plan.ruleHook = .absent) (htyped : ∀ entry ∈ plan.style.fields, entry.2.IsTyped)
    (hname : ∃ name, r.field = .text name)
    (hwrite : ∀ op, r.operator? = some op → ∀ policy field, ∃ output,
      w.write { plan with style := { plan.style with policy := policy } } r
        (some ⟨path, s.count, field⟩) s = .ok output ∧ Q output) :
    Result.EndsBy Q (Rule.fault? limit w.dialect plan (path, r))
      ((w.limited limit joining).writeRule plan path r s) := by
  rw [Writer.writeRule_apply _ hhook]
  refine ((fieldOf_endsBy htyped hname).with_eq).andThen fun field ⟨hfound, hfield⟩ => ?_
  unfold Rule.operatorFault?
  rw [canExpress_limited, dialect_limited]
  cases hop : r.operator? with
  | none =>
    rw [canExpress_of_none hop]
    exact .error _
  | some op =>
    obtain ⟨plan', hplan⟩ : ∃ plan', plan.forField field = .ok plan' := by
      cases field with
      | none => exact ⟨plan, rfl⟩
      | some f =>
        obtain ⟨numeric, hnumeric⟩ := (hfield f rfl).exists_isNumeric
        rw [FormatPlan.forField, hnumeric, Result.ok_bind]
        split <;> exact ⟨_, rfl⟩
    have hpolicy := FormatPlan.policy_of_forField hfound hplan
    obtain ⟨policy, rfl⟩ := FormatPlan.eq_of_forField hplan
    obtain rfl : policy = plan.policyOf r := hpolicy
    rw [canExpress_of_ne_qdrant hw hop, hplan]
    refine Eq.mpr (congrArg _ (w.write_limited limit joining r _ s)) ?_
    exact (Result.EndsBy.of_fault? _).bind fun _ _ => .of_exists (hwrite op hop _ field)

/-! ### Trees -/

/-- **Rows of rules.**  Rules that are written one after another are refused for the first
fault among them. -/
theorem writeRules_endsBy {I : Bindings → Prop} {fault : Path × Rule → Option Error}
    {rules : List (Path × Rule)} (hrule : ∀ e ∈ rules, ∀ s, I s →
      Result.EndsBy (fun output => I output.2) (fault e) (w.writeRule plan e.1 e.2 s))
    (hs : I s) : Result.EndsBy I (rules.findSome? fault) (w.writeRules plan rules s) := by
  induction rules generalizing s with
  | nil => exact .ok hs
  | cons e rules ih =>
    obtain ⟨hfirst, hrest⟩ := List.forall_mem_cons.mp hrule
    have hfound : (e :: rules).findSome? fault = (fault e).or (rules.findSome? fault) := by
      rw [List.findSome?_cons]
      cases fault e <;> rfl
    rw [hfound, writeRules, List.foldlM_cons]
    exact ((hfirst s hs).map fun _ hs' => hs').andThen fun s' hs' => ih hrest hs'

/-- What tracks a step ends by its fault. -/
theorem Tracks.endsBy {A : Type} {Q : A → Prop} {I : Bindings → Prop} {fault : Option Error}
    {x : Result (A × Bindings)} {y : Result Bindings} (h : Tracks Q x y) (hy : y.EndsBy I fault) :
    x.EndsBy (fun output => Q output.1) fault := by
  cases h with
  | error e =>
    cases hy
    exact .error e
  | ok s ha =>
    cases hy
    exact .ok ha

end Writer

/-! ### Trees -/

/-- Values that are texts. -/
abbrev Value.IsText (v : Value) : Prop := ∃ s, v = .text s

/-- A plan that leaves rules and values to the library, validates nothing, and has texts where
texts are asked for. -/
structure FormatPlan.LeavesRules (plan : FormatPlan) : Prop where
  concat : plan.style.concat.IsText
  fields : ∀ entry ∈ plan.style.fields, entry.2.IsTyped
  valueHook : plan.valueHook = .absent
  ruleHook : plan.ruleHook = .absent
  validate : plan.validate = false

namespace FormatPlan.LeavesRules
variable {plan : FormatPlan} (hplan : plan.LeavesRules)
include hplan

theorem failsOnly_concat : plan.style.concat.requireText.FailsOnly fun _ => False := by
  obtain ⟨s, hs⟩ := hplan.concat
  rw [hs]
  trivial

/-- What the policy of a field changes is none of that. -/
theorem withPolicy (policy : NumberPolicy) :
    LeavesRules { plan with style := { plan.style with policy := policy } } :=
  ⟨hplan.concat, hplan.fields, hplan.valueHook, hplan.ruleHook, hplan.validate⟩

/-- Nor is how parameters are bound. -/
theorem bind (b : Sql.Binding) : (b.plan plan).LeavesRules :=
  ⟨hplan.concat, hplan.fields, hplan.valueHook, hplan.ruleHook, hplan.validate⟩

theorem namedPerField : (Sql.namedPerField plan).LeavesRules :=
  ⟨hplan.concat, hplan.fields, hplan.valueHook, hplan.ruleHook, hplan.validate⟩

end FormatPlan.LeavesRules

namespace Writer
variable {w : Writer Value} {plan : FormatPlan}

/-- A writer that writes rules as texts, and joins texts to texts, joins what its rules give, as
long as the combinators can be written. -/
theorem joins_texts {Known : Value → Prop} (limit : DigitLimit)
    (joining : Value → List Conversion) (hhook : plan.ruleHook = .absent)
    (hwrite : ∀ plan r context s, Result.Ends (fun _ => True) (fun output => output.1.IsText)
      (w.write plan r context s))
    (hcombine : ∀ combinator, Known combinator → ∀ outs, (∀ out ∈ outs, Value.IsText out) →
      ∀ negated isRoot, ∃ s, w.combine combinator negated isRoot outs = .ok (.text s)) :
    (w.limited limit joining).Joins plan Value.IsText
      (fun combinator => Known combinator ∧ limit.check (joining combinator) = .ok ())
      (fun _ => True) where
  rule {r path s s' out} _ h := by
    rw [Writer.writeRule_apply _ hhook] at h
    obtain ⟨field, -, h⟩ := Result.bind_eq_ok h
    split at h
    · obtain ⟨plan', -, h⟩ := Result.bind_eq_ok h
      rw [write_limited] at h
      obtain ⟨-, -, h⟩ := Result.bind_eq_ok h
      exact (hwrite plan' r _ s).of_eq_ok h
    · cases h
  combine {outs combinator} houts _ hknown negated isRoot := by
    obtain ⟨s, hs⟩ := hcombine combinator hknown.1 outs houts negated isRoot
    refine ⟨.text s, ?_, s, rfl⟩
    rw [combine_limited, hknown.2, Result.ok_bind]
    exact hs

/-- **Trees.**  Where rules with operators are always written and rows of texts always joined, a
tree is refused for the first fault among the rules that are written. -/
theorem Joins.run_endsBy {Known : Value → Prop} {limit : DigitLimit}
    {joining : Value → List Conversion}
    (h : (w.limited limit joining).Joins plan Value.IsText Known (fun _ => True))
    (hw : w.dialect ≠ .qdrant)
    (hplan : plan.LeavesRules) {t root : Node} (ht : t.IsTree)
    (hroot : t.standardRoot = .ok root) (hfields : ∀ r ∈ t.rules, r.field.IsText)
    (hknown : ∀ combinator ∈ root.combinators, Known combinator)
    {I : Bindings → Prop} (hstart : I {})
    (hwrite : ∀ r : Rule, r.field.IsText → ∀ op, r.operator? = some op →
      ∀ path s, I s → ∀ policy field, ∃ output,
        w.write { plan with style := { plan.style with policy := policy } } r
          (some ⟨path, s.count, field⟩) s = .ok output ∧ I output.2) :
    ((w.limited limit joining).run plan t).EndsBy (fun _ => True)
      (root.liveRules.findSome? (Rule.fault? limit w.dialect plan)) := by
  have hstandard := ht.isStandard_of_standardRoot hroot
  rw [← Node.rules_of_standardRoot hroot] at hfields
  rw [Writer.run_of_not_validate _ t hplan.validate, hroot, Result.ok_bind,
    Node.liveRules_eq hstandard]
  have hrules : Result.EndsBy I
      ((root.liveFrom []).findSome? (Rule.fault? limit w.dialect plan))
      ((w.limited limit joining).writeRules plan (root.liveFrom []) {}) := by
    refine writeRules_endsBy (fun e he s hs => ?_) hstart
    have hname := hfields e.2 (Node.mem_rules_of_mem_liveFrom hstandard he)
    exact writeRule_endsBy limit joining hw hplan.ruleHook hplan.fields hname
      fun op hop policy field => hwrite e.2 hname op hop e.1 s hs policy field
  have htracks := h.tracks hstandard (fun _ _ => trivial) hknown [] {}
  exact (htracks.endsBy hrules).mono fun _ _ => trivial

end Writer

/-! ### Dialects -/

theorem Result.ends_any {α : Type} (x : Result α) : x.Ends (fun _ => True) fun _ => True := by
  cases x <;> trivial

/-- A text that a step gives is written. -/
theorem Writer.exists_text_apply {x : Result String} (h : x.FailsOnly fun _ => False)
    (s : Bindings) : ∃ output, (do return Value.text (← liftM x) : Write Value) s = .ok output := by
  obtain ⟨a, rfl, -⟩ := h.exists_eq_ok
  exact ⟨_, rfl⟩

section
variable {plan : FormatPlan} {r : Rule} {op : Operator}

/-- Fields have texts for labels, configured or not. -/
theorem Prose.ends_label (hplan : plan.LeavesRules) (name : String) :
    (label plan.style.fields (.text name)).Ends (fun _ => False) Value.IsText := by
  unfold label
  split
  · exact ⟨name, rfl⟩
  · obtain ⟨field, hfind, htyped⟩ := FieldTable.exists_find? hplan.fields name
    rw [hfind, Result.ok_bind]
    cases field with
    | none => exact ⟨name, rfl⟩
    | some f => exact (htyped f rfl).exists_displayLabel

theorem Prose.failsOnly_writeRule_of_leavesRules (hplan : plan.LeavesRules)
    (hname : r.field.IsText) (hop : r.operator? = some op) :
    (writeRule plan r).FailsOnly fun _ => False := by
  refine failsOnly_writeRule (P := Value.IsText) hplan.valueHook hop ?_ (fun v => ?_)
    fun items hitems => ?_
  · obtain ⟨name, hname⟩ := hname
    rw [hname]
    exact (ends_label hplan name).mono (fun _ he => he) fun _ _ => trivial
  · unfold describe
    split
    · exact ends_label hplan _
    · exact ⟨_, rfl⟩
  · obtain ⟨ss, rfl⟩ := Value.exists_eq_map_text hitems
    rw [Value.texts_map]
    trivial

/-- The output of a rule with parameters is a text, whatever has been bound. -/
theorem Sql.ends_write_bound (d : Dialect) (plan : FormatPlan) (r : Rule)
    (context : Option RuleContext) (s : Bindings) :
    Result.Ends (fun _ => True) (fun output => output.1.IsText)
      ((boundWriter d).write plan r context s) := by
  have hrule : (boundRule plan r context s.asked).Ends (fun _ => True)
      fun out => out.1.sql.IsText := by
    unfold boundRule
    refine (Result.ends_any _).bind fun skeleton _ => ?_
    dsimp only
    split
    · exact ⟨_, rfl⟩
    · exact (Result.ends_any _).bind fun names _ => ⟨_, rfl⟩
  have hcollect (clause : BoundSql) (hsql : clause.sql.IsText) (s : Bindings) :
      Result.Ends (fun _ => True) (fun output => output.1.IsText) (collect clause s) := by
    unfold collect
    rw [Write.get_bind]
    cases clause.params <;>
      exact (congrArg (Result.Ends _ _) (Write.lift_bind _ _ s)).mpr
        ((Result.ends_any _).bind fun _ _ => hsql)
  rw [write_bound]
  exact hrule.bind fun out hout => hcollect _ hout _

/-- A rule with an operator is written with parameters, and new ones are bound. -/
theorem Sql.exists_write_bound (b : Binding) (hplan : plan.LeavesRules)
    (hnames : b = .named → plan.names = .given NameSource.perField)
    (hname : r.field.IsText) (hop : r.operator? = some op)
    (before : List Slot) (path : Path) (field : Option Field) :
    ∃ output, (boundWriter b.dialect).write (b.plan plan) r
        (some ⟨path, (b.bindings plan.style before).count, field⟩)
          (b.bindings plan.style before) = .ok output ∧
      ∃ slots, output.2 = b.bindings plan.style slots := by
  have hcount : (b.bindings plan.style before).count = before.length := by cases b <;> rfl
  have hspell : (op.spellIn (.text b.dialect.name)).FailsOnly fun _ => False := by
    obtain ⟨spelling, hspelling⟩ := op.exists_spellIn (d := b.dialect) (by cases b <;> nofun)
    rw [hspelling]
    trivial
  have hbound := hplan.bind b
  have hskeleton : (ruleSkeleton (b.plan plan) r).FailsOnly fun _ => False :=
    failsOnly_ruleSkeleton hbound.valueHook hop hbound.failsOnly_concat hspell
  obtain ⟨c, hc, -⟩ := hskeleton.exists_eq_ok
  rw [hcount]
  exact ⟨_, write_of_skeleton b hnames (fun _ => hname) hc before path field, _, rfl⟩

theorem Prose.exists_joinGroup {outs : List Value} (houts : ∀ out ∈ outs, Value.IsText out)
    (name : String) (negated isRoot : Bool) :
    ∃ s, joinGroup (.text name) negated isRoot outs = .ok (.text s) := by
  obtain ⟨ss, rfl⟩ := Value.exists_eq_map_text houts
  exact ⟨_, by rw [joinGroup, Value.texts_map]; rfl⟩

end

section
variable {limit : DigitLimit} {plan : FormatPlan} (hplan : plan.LeavesRules) {t root : Node}
  (ht : t.IsTree)
  (hfields : ∀ r ∈ t.rules, r.field.IsText) (hroot : t.standardRoot = .ok root)
include hplan ht hfields hroot

theorem Sql.plain_endsBy
    (hcombinators : ∀ combinator ∈ root.combinators, limit.check [.write combinator] = .ok ()) :
    (plain plan t limit).EndsBy (fun _ => True)
      (root.liveRules.findSome? (Rule.fault? limit .sql plan)) := by
  have hjoins := Writer.joins_texts (w := plainWriter) limit (fun name => [.write name])
    hplan.ruleHook (fun plan r context s =>
      (Writer.ends_lift_apply (plainRule plan r).ends_any s).bind fun _ _ => ⟨_, rfl⟩)
    fun combinator (_ : True) outs houts negated _ => exists_joinGroup houts combinator negated
  have hrun := hjoins.run_endsBy nofun hplan ht hroot hfields
    (fun combinator hc => ⟨trivial, hcombinators combinator hc⟩)
    (I := fun _ => True) trivial fun r _ op hop path s _ policy field => ?_
  · exact hrun.bind fun _ _ => .ok trivial
  · have hpolicy := hplan.withPolicy policy
    have hrule := failsOnly_plainRule hpolicy.valueHook hop hpolicy.failsOnly_concat
    obtain ⟨output, houtput⟩ := Writer.exists_text_apply hrule s
    exact ⟨output, houtput, trivial⟩

theorem Prose.format_endsBy (hcombinators : ∀ combinator ∈ root.combinators, combinator.IsText) :
    (format plan t limit).EndsBy (fun _ => True)
      (root.liveRules.findSome? (Rule.fault? limit .naturalLanguage plan)) := by
  have hjoin (combinator : Value) (hc : combinator.IsText) (outs : List Value)
      (houts : ∀ out ∈ outs, Value.IsText out) (negated isRoot : Bool) :
      ∃ s, joinGroup combinator negated isRoot outs = .ok (.text s) := by
    obtain ⟨name, rfl⟩ := hc
    exact exists_joinGroup houts name negated isRoot
  have hjoins := Writer.joins_texts (w := writer) limit (fun _ => []) hplan.ruleHook
    (fun plan r context s =>
      (Writer.ends_lift_apply (writeRule plan r).ends_any s).bind fun _ _ => ⟨_, rfl⟩) hjoin
  have hrun := hjoins.run_endsBy nofun hplan ht hroot hfields
    (fun combinator hc => ⟨hcombinators combinator hc, limit.check_nil⟩)
    (I := fun _ => True) trivial fun r hname op hop path s _ policy field => ?_
  · exact hrun.bind fun _ _ => .ok trivial
  · have hrule := failsOnly_writeRule_of_leavesRules (hplan.withPolicy policy) hname hop
    obtain ⟨output, houtput⟩ := Writer.exists_text_apply hrule s
    exact ⟨output, houtput, trivial⟩

theorem Sql.bound_endsBy (b : Binding) (hnames : b = .named → plan.names = .absent)
    (hcombinators : ∀ combinator ∈ root.combinators, limit.check [.write combinator] = .ok ()) :
    (bound b.dialect (b.plan plan) t limit).EndsBy (fun _ => True)
      (root.liveRules.findSome? (Rule.fault? limit b.dialect (b.plan plan))) := by
  have hasked := hplan.namedPerField
  have hjoins := Writer.joins_texts (w := boundWriter b.dialect) limit (fun name => [.write name])
    (hasked.bind b).ruleHook (ends_write_bound b.dialect)
    fun combinator (_ : True) outs houts negated _ => exists_joinGroup houts combinator negated
  have hfaults : Rule.fault? limit (boundWriter b.dialect).dialect (b.plan (namedPerField plan)) =
      Rule.fault? limit b.dialect (b.plan plan) := rfl
  have hwriter : (boundWriter b.dialect).limited limit (fun name => [.write name]) =
      (boundWriter b.dialect).within limit boundConversions fun name => [.write name] := by
    cases b <;> rfl
  have hnamed : b = .named → (namedPerField plan).names = .given NameSource.perField := by
    intro hb
    rw [namedPerField, hnames hb]
    rfl
  -- whatever has been bound, new names are new
  have hrun := hjoins.run_endsBy (by cases b <;> decide) (hasked.bind b) ht hroot hfields
    (fun combinator hc => ⟨trivial, hcombinators combinator hc⟩)
    (I := fun s => ∃ slots, s = b.bindings plan.style slots)
    ⟨[], by cases b <;> rfl⟩ fun r hname op hop path s hs policy field => ?_
  · rw [hfaults, hwriter] at hrun
    exact hrun.bind fun _ _ => .ok trivial
  · obtain ⟨before, rfl⟩ := hs
    exact exists_write_bound b (hasked.withPolicy policy) hnamed hname hop before path field

end

/-! ### Queries -/

/-- What a combinator must be for a dialect to join with it: prose takes it for a word, and
elsewhere any value is written. -/
def Dialect.Joins (d : Dialect) (limit : DigitLimit) (combinator : Value) : Prop :=
  match d with
  | .naturalLanguage => combinator.IsText
  | _ => limit.check [.write combinator] = .ok ()

namespace Query
variable {limit : DigitLimit} {o : FormatOptions} {plan : FormatPlan} {d : Dialect} {t root : Node}

theorem write_endsBy (limit : DigitLimit) (hplan : plan.LeavesRules)
    (hformat : plan.style.format = .dialect d)
    (hd : d ∈ [.sql, .parameterized, .parameterizedNamed, .naturalLanguage])
    (hnames : d = .parameterizedNamed → plan.names = .absent) (ht : t.IsTree)
    (hfields : ∀ r ∈ t.rules, r.field.IsText) (hroot : t.standardRoot = .ok root)
    (hcombinators : ∀ combinator ∈ root.combinators, d.Joins limit combinator) :
    (write d plan t limit).EndsBy (fun _ => True)
      (root.liveRules.findSome? (Rule.fault? limit d plan)) := by
  have hself (b : Sql.Binding) (hdialect : d = b.dialect)
      (hnumbers : b.numbers plan.style.numbered = plan.style.numbered) : b.plan plan = plan := by
    rw [Sql.Binding.plan, hnumbers, ← hdialect, ← hformat]
  simp only [List.mem_cons, List.not_mem_nil, or_false] at hd
  rcases hd with rfl | rfl | rfl | rfl
  · exact (Sql.plain_endsBy hplan ht hfields hroot hcombinators).map fun _ _ => trivial
  · obtain ⟨b, hdialect, hnumbers, hb⟩ : ∃ b : Sql.Binding, .parameterized = b.dialect ∧
        b.numbers plan.style.numbered = plan.style.numbered ∧ b ≠ .named := by
      cases hnumbered : plan.style.numbered with
      | false => exact ⟨.unnumbered, rfl, rfl, nofun⟩
      | true => exact ⟨.numbered, rfl, rfl, nofun⟩
    have hbound := Sql.bound_endsBy hplan ht hfields hroot b (fun h => absurd h hb) hcombinators
    rw [hself b hdialect hnumbers, ← hdialect] at hbound
    exact hbound.map fun _ _ => trivial
  · have hbound := Sql.bound_endsBy hplan ht hfields hroot .named (fun _ => hnames rfl) hcombinators
    rw [hself .named rfl rfl] at hbound
    exact hbound.map fun _ _ => trivial
  · exact (Prose.format_endsBy hplan ht hfields hroot hcombinators).map fun _ _ => trivial

/-- **The first fault.**  A tree is written exactly if no rule that is written has a fault, and
otherwise the error is that of the first such rule in the order of the walk. -/
theorem format_first_fault (limit : DigitLimit) (hresolve : o.resolve = .ok plan)
    (hformat : plan.style.format = .dialect d)
    (hd : d ∈ [.sql, .parameterized, .parameterizedNamed, .naturalLanguage])
    (hplan : plan.LeavesRules) (hnames : d = .parameterizedNamed → plan.names = .absent)
    (ht : t.IsTree) (hfields : ∀ r ∈ t.rules, r.field.IsText)
    (hroot : t.standardRoot = .ok root)
    (hcombinators : ∀ combinator ∈ root.combinators, d.Joins limit combinator) :
    ((∃ out, format o t limit = .ok out) ↔
        ∀ e ∈ root.liveRules, Rule.fault? limit d plan e = none) ∧
      ∀ e : Error, format o t limit = .error e ↔
        (root.liveRules.findSome? (Rule.fault? limit d plan)).map limit.word = some e := by
  have hends :=
    (write_endsBy limit hplan hformat hd hnames ht hfields hroot hcombinators).worded limit
  rw [← format_eq_worded hresolve hformat ht limit] at hends
  refine ⟨?_, fun e => hends.eq_error_iff⟩
  rw [← List.findSome?_eq_none_iff, ← Option.map_eq_none_iff]
  exact hends.exists_eq_ok_iff

/-- A rule with an operator by any name. -/
def condition (field operator : String) : Rule :=
  { field := .text field, operator := .text operator, value := .int 1 }

/-- A tree with four faults, of which the third is the first one that counts: the rules with
the two before it are disabled, or in a disabled group. -/
def faultySpecimen : Node :=
  .group (.text "and") {}
    [.rule { condition "b" "=" with disabled := true }, .rule (condition "a" "="),
      .group (.text "or") { disabled := true } [.rule (condition "a" "almost")],
      .interleaved {} [.rule (condition "a" "nearly"), .bare (.text " OR "),
        .rule (condition "b" "=")]]

/-- Its standard form. -/
def faultyRoot : Node :=
  .group (.text "and") {}
    [.rule { condition "b" "=" with disabled := true }, .rule (condition "a" "="),
      .group (.text "or") { disabled := true } [.rule (condition "a" "almost")],
      .group (.text (Node.joinName " OR " 2)) {}
        [.rule (condition "a" "nearly"), .rule (condition "b" "=")]]

/-- Prose, with one field that is configured. -/
def faultyOptions : FormatOptions :=
  { format := .text "natural_language", fields := .list [.field { name := .text "a" }] }

def faultyPlan : FormatPlan :=
  { style :=
      { format := .dialect .naturalLanguage, fields := [(.text "a", { name := .text "a" })] } }

theorem format_first_fault_specimen :
    faultyOptions.resolve = .ok faultyPlan ∧
      faultyPlan.style.format = .dialect .naturalLanguage ∧ faultyPlan.LeavesRules ∧
      faultySpecimen.IsTree ∧ (∀ r ∈ faultySpecimen.rules, r.field.IsText) ∧
      faultySpecimen.standardRoot = .ok faultyRoot ∧
      (∀ combinator ∈ faultyRoot.combinators, Dialect.Joins .naturalLanguage (some 30) combinator) ∧
      format faultyOptions faultySpecimen (some 30) =
        .error
          (.unsupportedOperator (.text "nearly") (.text "natural_language") (some [3, 0])) := by
  have hresolve : faultyOptions.resolve = .ok faultyPlan := rfl
  have hplan : faultyPlan.LeavesRules := by
    refine ⟨⟨_, rfl⟩, ?_, rfl, rfl, rfl⟩
    rintro entry hentry
    obtain rfl : entry = (.text "a", { name := .text "a" }) := List.mem_singleton.mp hentry
    exact ⟨⟨_, rfl⟩, .inl rfl, .inl rfl, .inl rfl⟩
  have htree : faultySpecimen.IsTree := by
    have hgroup : (Node.group (.text "or") { disabled := true }
        [.rule (condition "a" "almost")]).IsTree :=
      .group (List.forall_mem_singleton.mpr (.rule _))
    have hmixed : (Node.interleaved {} [.rule (condition "a" "nearly"), .bare (.text " OR "),
        .rule (condition "b" "=")]).IsTree := by
      refine .interleaved rfl ?_
      simp only [Node.turnMembers, Node.everySecond, List.forall_mem_cons]
      exact ⟨.rule _, .rule _, by simp⟩
    refine .group ?_
    simp only [List.forall_mem_cons]
    exact ⟨.rule _, .rule _, hgroup, hmixed, by simp⟩
  have hfields : ∀ r ∈ faultySpecimen.rules, r.field.IsText := by
    simp [faultySpecimen, condition]
  have hroot : faultySpecimen.standardRoot = .ok faultyRoot := rfl
  have hcombinators : ∀ combinator ∈ faultyRoot.combinators,
      Dialect.Joins .naturalLanguage (some 30) combinator := by
    simp [faultyRoot, Node.combinators, Node.combinatorsOf, Dialect.Joins]
  refine ⟨hresolve, rfl, hplan, htree, hfields, hroot, hcombinators, ?_⟩
  exact ((format_first_fault (some 30) hresolve rfl (by decide) hplan (fun hd => by cases hd) htree
    hfields hroot hcombinators).2 _).mpr rfl

/-- A rule whose value is a row of so many ones. -/
def ones (digits : Nat) : Rule :=
  Rule.of "a" .eq (.text (String.ofList (List.replicate digits '1')))

/-- The rule in a group of its own. -/
def onesRoot (digits : Nat) : Node := .ofChildren "and" [.rule (ones digits)]

/-- Prose with numbers, of any fields. -/
def numericOptions : FormatOptions :=
  { format := .text "natural_language", parseNumbers := .bool true }

def numericPlan : FormatPlan :=
  { style := { format := .dialect .naturalLanguage, policy := .strict } }

theorem liveRules_onesRoot (digits : Nat) :
    (onesRoot digits).liveRules = [([0], ones digits)] := rfl

/-- A row that is too long is the fault of its rule. -/
theorem fault?_ones {limit digits : Nat} (h : limit < digits) :
    (onesRoot digits).liveRules.findSome? (Rule.fault? (some limit) .naturalLanguage numericPlan) =
      some (.misuse .tooManyDigits) := by
  have hfits := Conversion.fits_read_ones .strict nofun h
  have hcheck : DigitLimit.check (some limit) (ruleConversions .naturalLanguage
      (numericPlan.planOf (ones digits)) (ones digits)) = Misuse.tooManyDigits.fail := by
    have hconversions : ruleConversions .naturalLanguage (numericPlan.planOf (ones digits))
        (ones digits) = [.write (.text "a"), .read .strict (ones digits).value,
          .write (ones digits).value] := rfl
    rw [hconversions, DigitLimit.check, if_neg]
    simp [ones, Rule.of, hfits]
  rw [liveRules_onesRoot, List.findSome?_cons, Rule.fault?, hcheck]
  rfl

/-- **Long numerals.**  A numeral with more digits than are read refuses the tree. -/
theorem format_ones {limit digits : Nat} (h : limit < digits) :
    format numericOptions (.rule (ones digits)) (some limit) = .error (.misuse .tooManyDigits) := by
  have hresolve : numericOptions.resolve = .ok numericPlan := rfl
  have hplan : numericPlan.LeavesRules :=
    ⟨⟨_, rfl⟩, fun entry hentry => (List.not_mem_nil hentry).elim, rfl, rfl, rfl⟩
  have htext : ∀ combinator ∈ (onesRoot digits).combinators, combinator.IsText := by
    simp [onesRoot, Node.ofChildren, Node.combinators, Node.combinatorsOf]
  have hends := write_endsBy (some limit) hplan rfl (by decide) (fun hnamed => by cases hnamed)
    (.rule (ones digits)) (List.forall_mem_singleton.mpr ⟨_, rfl⟩)
    (Node.standardRoot_rule _) htext
  rw [format_eq_worded hresolve rfl (.rule _), hends.eq_error_iff.mpr (fault?_ones h)]
  rfl

/-- So a rule on a field that need not be configured, with an operator, is refused. -/
theorem format_first_fault_ones :
    (Node.rule (ones 4301)).standardRoot = .ok (onesRoot 4301) ∧
      (∀ e ∈ (onesRoot 4301).liveRules,
        numericPlan.style.fields.fault? e = none ∧
          Rule.operatorFault? .naturalLanguage e = none) ∧
      format numericOptions (.rule (ones 4301)) (some 4300) = .error (.misuse .tooManyDigits) := by
  refine ⟨rfl, ?_, format_ones (by decide)⟩
  rw [liveRules_onesRoot]
  exact List.forall_mem_singleton.mpr ⟨rfl, rfl⟩

end Query
end RuleTree
