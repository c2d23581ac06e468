import RuleTree.Proofs.FlatValues
import RuleTree.Proofs.Policies

/-! # JsonLogic comes back

The trees of `JsonLogic.repertoire` are read back from their JsonLogic rules,
under every number policy that leaves their literals alone (`reread_jsonlogic`).
Every rule and every group is an object of one operation that is read as one
clause, whatever the depth at which it stands (`Reads`).  The operators without a
form of their own are negations of their inverses, which readers fold back
(`reads_complete`), and so are negated groups.

Other rules come back too, though not always as they were: `returned?` says as what,
and `comesBack` that it is so.  Canonical rules are those that come back as they are
(`returned?_of_takes`).
-/
namespace RuleTree
namespace JsonLogic
open Clause

/-! ### The class of trees -/

/-- What JsonLogic tells apart: every name and every text, and every group but a
root that is nothing but a negated group. -/
def repertoire : Repertoire where
  IsName _ := True
  IsListed name := name ≠ "" ∧ Text.trim name = name
  listed h := h
  IsDistinct isRoot negated _ children :=
    isRoot = true → negated = false → ¬Node.IsLoneNegation children

/-! ### Objects of one operation -/

section
variable {policy : NumberPolicy}

/-- An object of one operation that is read as the clause, at any depth. -/
def Reads (policy : NumberPolicy) (object : Value) (c : Clause) : Prop :=
  ∃ entry, object = .map [entry] ∧
    ∀ depth, operationClause (.arraysUnder policy) depth [entry] = .ok c

theorem Reads.clauseOf {object : Value} {c : Clause} (h : Reads policy object c) (depth : Nat) :
    clauseOf (.arraysUnder policy) depth object = .ok c := by
  obtain ⟨entry, rfl, hreads⟩ := h
  rw [JsonLogic.clauseOf, hreads]

theorem Reads.isEmptyOutput {object : Value} {c : Clause} (h : Reads policy object c) :
    isEmptyOutput object = false := by
  obtain ⟨entry, rfl, -⟩ := h
  rfl

theorem Reads.clause? {object : Value} {c : Clause} (h : Reads policy object c) :
    clause? (.arraysUnder policy) object = .ok (some c) := by
  have hclause := h.clauseOf 1
  obtain ⟨entry, rfl, -⟩ := h
  have hdocument : Json.document "JsonLogic" (.map [entry]) = .ok (.map [entry]) := rfl
  rw [JsonLogic.clause?, hdocument, Result.ok_bind]
  simp only [hclause]
  rfl

theorem clausesOf_of_reads {objects : List Value} {cs : List Clause}
    (h : List.Forall₂ (Reads policy) objects cs) (depth : Nat) :
    clausesOf (.arraysUnder policy) depth objects = .ok cs := by
  induction h with
  | nil => rw [clausesOf]
  | cons hobject _ ih =>
    rw [clausesOf, hobject.clauseOf, ih]
    rfl

/-- An operation that connects no others is a rule. -/
theorem reads_operation {name : String} {arguments : List Value} {r : Rule}
    (hjunction : junction? name = none) (hnegates : negates name = false)
    (h : operationRule name arguments = .ok r) :
    Reads policy (operation name arguments) (.rule r) := by
  refine ⟨(name, .list arguments), rfl, fun depth => ?_⟩
  unfold operationClause
  simp only [hjunction, hnegates, argumentsOf, h]
  rfl

/-- A negation is the complement of what it negates. -/
theorem reads_negation {object : Value} {c d : Clause} (h : Reads policy object c)
    (hnegate : negate c = .ok d) : Reads policy (negation object) d := by
  have hclause := h.clauseOf
  obtain ⟨entry, rfl, -⟩ := h
  refine ⟨("!", .map [entry]), rfl, fun depth => ?_⟩
  have hjunction : junction? "!" = none := rfl
  have hnegates : negates "!" = true := rfl
  unfold operationClause
  simp only [hjunction, hnegates, hclause, if_true]
  exact hnegate

/-- A connection of objects is the group of their clauses. -/
theorem reads_group (j : Junction) {objects : List Value} {cs : List Clause}
    (h : List.Forall₂ (Reads policy) objects cs) :
    Reads policy (operation j.name objects) (join j false cs) := by
  refine ⟨(j.name, .list objects), rfl, fun depth => ?_⟩
  have hjunction : junction? j.name = some j := by cases j <;> rfl
  unfold operationClause
  simp only [hjunction, clausesOf_of_reads h]
  rfl

/-- The group of objects is written, and is read as that of their clauses. -/
theorem exists_joinGroup (j : Junction) (negated : Bool) {objects : List Value} {head : Clause}
    {cs : List Clause} (h : List.Forall₂ (Reads policy) objects (head :: cs)) :
    ∃ out, joinGroup (.text j.name) negated objects = .ok out ∧
      Reads policy out (join j negated (head :: cs)) := by
  have hgroup := reads_group j h
  have hout : joinGroup (.text j.name) negated objects =
      .ok (if negated then negation (operation j.name objects) else operation j.name objects) := by
    cases j <;> cases negated <;> rfl
  refine ⟨_, hout, ?_⟩
  cases negated with
  | false => exact hgroup
  | true => exact reads_negation hgroup (negate_group false head _)

/-- A combinator that is written is one of two. -/
theorem exists_junction {combinator : Value} {negated : Bool} {objects : List Value} {out : Value}
    (h : joinGroup combinator negated objects = .ok out) :
    ∃ j : Junction, joinGroup (.text j.name) negated objects = .ok out := by
  obtain ⟨text, -, hjoined⟩ := Result.bind_eq_ok h
  dsimp only at hjoined
  split at hjoined
  · rename_i hname
    rcases Bool.or_eq_true_iff.mp hname with hname | hname
    · rw [beq_iff_eq.mp hname] at hjoined
      exact ⟨.and, hjoined⟩
    · rw [beq_iff_eq.mp hname] at hjoined
      exact ⟨.or, hjoined⟩
  · cases hjoined

end

/-! ### Operands -/

section
variable {r : Rule}

/-- Whether the values of a rule are read back as literals or as names of fields. -/
def sourceOf (r : Rule) : ValueSource := if r.comparesFields then .field else .value

/-- A value of a rule as it is read back: fields are named by texts. -/
def readBack (r : Rule) (v : Value) : Value :=
  if r.comparesFields then .text (variableName v) else v

theorem operandOf_variableOf (v : Value) :
    operandOf (variableOf v) = .ok (.field (variableName v)) := rfl

theorem operandOf_of_isFlat {v : Value} (h : v.isFlat = true) : operandOf v = .ok (.literal v) := by
  cases v <;> first | rfl | cases h

/-- The operand of a rule is read as what it is read back as; a map would name a field. -/
theorem operandOf_operand {v : Value} (h : v.isFlat = true) :
    operandOf (operand (FormatPlan.usual .jsonlogic).style r v) =
      .ok (.ofSource (sourceOf r) (readBack r v)) := by
  rw [operand, sourceOf, readBack]
  split
  · exact operandOf_variableOf v
  · rw [show (FormatPlan.usual .jsonlogic).style.policy = .never from rfl,
      Value.withNumbers_never, operandOf_of_isFlat h]
    rfl

theorem mapM_operandOf {items : List Value} (h : ∀ v ∈ items, v.isFlat = true) :
    (items.map (operand (FormatPlan.usual .jsonlogic).style r)).mapM operandOf =
      .ok ((items.map (readBack r)).map (.ofSource (sourceOf r))) := by
  induction items with
  | nil => rfl
  | cons v items ih =>
    obtain ⟨hv, hitems⟩ := List.forall_mem_cons.mp h
    rw [List.map_cons, List.mapM_cons, operandOf_operand hv, ih hitems]
    rfl

theorem variableName_of_isPlain {v : Value} (h : v.isPlain = true) :
    variableName v = v.display := by
  cases v <;> first | rfl | cases h

/-- The items of a rule are read back as items. -/
theorem isItem_readBack (hflat : r.value.isFlat = true) {item : Value}
    (h : item ∈ r.value.toItems) : repertoire.IsItem (sourceOf r) (readBack r item) := by
  obtain ⟨hraw, hblank⟩ := Value.mem_toItems.mp h
  have hplain := Value.isPlain_of_mem_rawItems hflat hraw
  rw [sourceOf, readBack]
  split
  · rw [variableName_of_isPlain hplain]
    exact .field (Value.display_of_mem_toItems hflat h)
  · cases item with
    | null => cases hblank
    | bool b => exact .bool b
    | int n => exact .int n
    | text s =>
      obtain ⟨hne, htrim⟩ := Value.display_of_mem_toItems hflat h
      exact .text hne htrim
    | float | list | map => cases hplain

end

/-! ### Rules -/

/-- The rule that a rule comes back as; none where nothing is written of it.  The items of
a multi-value rule are a list, a text match takes a text, and equality with null is a null
check. -/
def returned? (op : Operator) (r : Rule) : Option Rule :=
  let name := variableName r.field
  if op.isNullCheck then some (Rule.of name op .null)
  else if op.isMembership then
    match r.value.toItems with
    | [] => none
    | items => some (Rule.ofSource (sourceOf r) name op (.list (items.map (readBack r))))
  else if op.isRange then
    r.value.bounds?.map fun (low, high) =>
      Rule.ofSource (sourceOf r) name op (.list [readBack r low, readBack r high])
  else if r.comparesFields then some (Rule.ofFields name op (.text (variableName r.value)))
  else if op.isTextMatch then some (Rule.of name op (.text r.value.display))
  else some (comparison.against true name op r.value)

section
variable {policy : NumberPolicy} {source : ValueSource} {name : String} {field v : Value}
  {op : Operator} {r : Rule}

/-- The operator whose form an operator takes, in a negation or as it is. -/
def positive (op : Operator) : Operator := if isNegation op then op.inverse else op

/-- What is written of a rule in the positive form of its operator. -/
def complete (op : Operator) (object : Value) : Value :=
  if isNegation op then negation object else object

/-- The complement of the positive form of a rule is read as the rule. -/
theorem reads_complete {object : Value}
    (h : Reads policy object (.rule (Rule.ofSource source name (positive op) v))) :
    Reads policy (complete op object) (.rule (Rule.ofSource source name op v)) := by
  rw [positive] at h
  rw [complete]
  split
  case isFalse hplain => rwa [if_neg hplain] at h
  case isTrue hnegation =>
    rw [if_pos hnegation] at h
    refine reads_negation h ?_
    rw [negate_rule, invertRule_ofSource, Operator.inverse_inverse]

theorem writeRule_usual (hop : r.operator? = some op) :
    writeRule (.usual .jsonlogic) r = .ok
      (match ownRule (FormatPlan.usual .jsonlogic).style op r with
      | none => .null
      | some object => complete op object) := by
  have hoperator : Language.ruleOperator .jsonlogic r = .ok op := by
    rw [Language.ruleOperator, hop]
  have hsupplied : (FormatPlan.usual .jsonlogic).suppliedValue r op = .ok none := by
    rw [FormatPlan.suppliedValue]
    split <;> rfl
  rw [writeRule, hoperator, Result.ok_bind, hsupplied, Result.ok_bind]
  rfl

/-! Each form is read as its rule. -/

theorem reads_nullCheck (hop : op.isNullCheck = true) :
    Reads policy (operation (Dialect.jsonlogicSpelling op) [variableOf field, .null])
      (.rule (Rule.of (variableName field) op .null)) := by
  cases op <;> cases hop <;> exact reads_operation rfl rfl rfl

/-- A field and an operand make up their comparison, or a null check. -/
theorem comparisonRule_field (op : Operator) (name : String) (right : Operand) :
    comparisonRule op (.field name) right = comparison (.field name) op right true := by
  cases right with
  | field other => rfl
  | literal v => cases v <;> cases op <;> rfl

theorem reads_comparison (hop : op.isComparison = true) {right : Operand} {r' : Rule}
    (hvalue : operandOf v = .ok right)
    (h : comparison (.field (variableName field)) op right true = .ok r') :
    Reads policy (application op field v) (.rule r') := by
  have happlication : application op field v =
      operation (Dialect.jsonlogicSpelling op) [variableOf field, v] := by
    rw [application, if_neg (by cases op <;> cases hop <;> decide)]
  have hspelling : comparison? (Dialect.jsonlogicSpelling op) = some op := by
    cases op <;> cases hop <;> decide
  rw [happlication]
  refine reads_operation (by cases op <;> cases hop <;> rfl) (by cases op <;> cases hop <;> rfl) ?_
  rw [operationRule, List.mapM_cons, List.mapM_cons, operandOf_variableOf, hvalue]
  simp only [hspelling]
  exact (comparisonRule_field op _ right).trans h

theorem reads_textMatch (hop : op.isTextMatch = true) {right : Operand}
    (hvalue : operandOf v = .ok right) :
    Reads policy (application op field v)
      (.rule (matchRule (variableName field) (positive op) right)) := by
  cases op <;> cases hop
  all_goals
    refine reads_operation rfl rfl ?_
    simp only [operationRule, List.mapM_cons, hvalue, operandOf_variableOf]
    cases right <;> rfl

theorem reads_membership {items : List Value} (hne : items ≠ [])
    (hitems : ∀ item ∈ items,
      item.isFlat = true ∧ repertoire.IsItem (sourceOf r) (readBack r item)) :
    Reads policy (operation "in" [variableOf field,
        .list (items.map (operand (FormatPlan.usual .jsonlogic).style r))])
      (.rule (Rule.ofSource (sourceOf r) (variableName field) .isIn
        (.list (items.map (readBack r))))) := by
  have hcomparison : comparison? "in" = none := by decide
  have hlist : ∀ arguments, operandOf (.list arguments) = .ok (.literal (.list arguments)) :=
    fun _ => rfl
  refine reads_operation rfl rfl ?_
  simp only [operationRule, List.mapM_cons, operandOf_variableOf, hlist, hcomparison,
    Result.ok_bind, List.mapM_nil]
  show inRule (.field _) (.literal (.list _)) = _
  simp only [inRule, mapM_operandOf fun item hitem => (hitems item hitem).1, Result.ok_bind]
  refine listRule_ofSource (d := repertoire) (by simpa using hne) (fun w hw => ?_) _ .isIn
  obtain ⟨item, hitem, rfl⟩ := List.mem_map.mp hw
  exact (hitems item hitem).2

theorem reads_range {low high : Value}
    (hitems : ∀ item ∈ [low, high],
      item.isFlat = true ∧ repertoire.IsItem (sourceOf r) (readBack r item)) :
    Reads policy (operation "<=" [operand (FormatPlan.usual .jsonlogic).style r low,
        variableOf field, operand (FormatPlan.usual .jsonlogic).style r high])
      (.rule (Rule.ofSource (sourceOf r) (variableName field) .between
        (.list [readBack r low, readBack r high]))) := by
  obtain ⟨hlow, hhigh⟩ := List.forall_mem_cons.mp hitems
  have hhigh := List.forall_mem_singleton.mp hhigh
  have hcomparison : comparison? "<=" = some .le := by decide
  refine reads_operation rfl rfl ?_
  simp only [operationRule, List.mapM_cons, List.mapM_nil, operandOf_variableOf,
    operandOf_operand hlow.1, operandOf_operand hhigh.1, hcomparison, Result.ok_bind]
  exact listRule_ofSource (List.cons_ne_nil _ _)
    (List.forall_mem_cons.mpr ⟨hlow.2, List.forall_mem_singleton.mpr hhigh.2⟩) _ .between

/-- The items of a rule with a flat value are flat, and are read back as items. -/
theorem item_of_isFlat (hflat : r.value.isFlat = true) {item : Value}
    (h : item ∈ r.value.toItems) :
    item.isFlat = true ∧ repertoire.IsItem (sourceOf r) (readBack r item) :=
  ⟨Value.isFlat_of_isPlain (Value.isPlain_of_mem_rawItems hflat (Value.mem_toItems.mp h).1),
    isItem_readBack hflat h⟩

/-- The rule is written as an object that is read as what it comes back as, and nothing is
written of it otherwise. -/
def ComesBack (policy : NumberPolicy) (op : Operator) (r : Rule) : Prop :=
  match returned? op r with
  | none => ownRule (FormatPlan.usual .jsonlogic).style op r = none
  | some r' => ∃ object, ownRule (FormatPlan.usual .jsonlogic).style op r = some object ∧
      Reads policy (complete op object) (.rule r')

theorem comesBack_nullCheck (hop : op.isNullCheck = true) : ComesBack policy op r := by
  have hcomplete : ∀ object, complete op object = object := by
    cases op <;> cases hop <;> exact fun _ => rfl
  simp only [ComesBack, returned?, ownRule, hop, if_true, hcomplete]
  exact ⟨_, rfl, reads_nullCheck hop⟩

theorem comesBack_membership (hop : op.isMembership = true) (hflat : r.value.isFlat = true) :
    ComesBack policy op r := by
  have hother := Operator.of_isMembership hop
  have hpositive : positive op = .isIn := by cases op <;> cases hop <;> rfl
  simp only [ComesBack, returned?, ownRule, hother.1, hop, if_true, Bool.false_eq_true, if_false]
  cases hitems : r.value.toItems with
  | nil => rfl
  | cons first rest =>
    refine ⟨_, rfl, reads_complete ?_⟩
    rw [hpositive]
    exact reads_membership (List.cons_ne_nil _ _) fun item hitem =>
      item_of_isFlat hflat (hitems ▸ hitem)

theorem comesBack_range (hop : op.isRange = true) (hflat : r.value.isFlat = true) :
    ComesBack policy op r := by
  have hother := Operator.of_isRange hop
  have hpositive : positive op = .between := by cases op <;> cases hop <;> rfl
  simp only [ComesBack, returned?, ownRule, hother.1, hother.2.1, hop, if_true,
    Bool.false_eq_true, if_false]
  cases hbounds : r.value.bounds? with
  | none => rfl
  | some bounds =>
    obtain ⟨low, high⟩ := bounds
    obtain ⟨hlow, hhigh⟩ := Value.mem_toItems_of_bounds? hbounds
    refine ⟨_, rfl, reads_complete ?_⟩
    rw [hpositive]
    exact reads_range (List.forall_mem_cons.mpr ⟨item_of_isFlat hflat hlow,
      List.forall_mem_singleton.mpr (item_of_isFlat hflat hhigh)⟩)

theorem comesBack_textMatch (hop : op.isTextMatch = true) : ComesBack policy op r := by
  have hother := Operator.of_isTextMatch hop
  simp only [ComesBack, returned?, ownRule, singleValue, hother, hop, Bool.false_eq_true, if_false,
    Bool.true_and]
  cases hfields : r.comparesFields with
  | false =>
    have hmatch : Reads policy (application op r.field (.text r.value.display))
        (.rule (matchRule (variableName r.field) (positive op)
          (.literal (.text r.value.display)))) := reads_textMatch hop rfl
    exact ⟨_, rfl, reads_complete hmatch⟩
  | true =>
    have hoperand : operandOf (operand (FormatPlan.usual .jsonlogic).style r r.value) =
        .ok (.field (variableName r.value)) := by
      rw [operand, hfields]
      rfl
    exact ⟨_, rfl, reads_complete (reads_textMatch hop hoperand)⟩

theorem comesBack_comparison (hop : op.isComparison = true) (hflat : r.value.isFlat = true) :
    ComesBack policy op r := by
  have hother := Operator.of_isComparison hop
  have hcomplete : ∀ object, complete op object = object := by
    cases op <;> cases hop <;> exact fun _ => rfl
  simp only [ComesBack, returned?, ownRule, singleValue, hother, Bool.false_eq_true, if_false,
    Bool.false_and, hcomplete]
  have hvalue : operandOf (operand (FormatPlan.usual .jsonlogic).style r r.value) =
      .ok (.ofSource (sourceOf r) (readBack r r.value)) := operandOf_operand hflat
  cases hfields : r.comparesFields with
  | false =>
    rw [sourceOf, readBack, hfields] at hvalue
    exact ⟨_, rfl, reads_comparison hop hvalue rfl⟩
  | true =>
    rw [sourceOf, readBack, hfields] at hvalue
    exact ⟨_, rfl, reads_comparison hop hvalue rfl⟩

/-- **Rules.**  Every rule with a flat value comes back as what it is read as. -/
theorem comesBack (policy : NumberPolicy) (op : Operator) (hflat : r.value.isFlat = true) :
    ComesBack policy op r := by
  by_cases hnull : op.isNullCheck = true
  · exact comesBack_nullCheck hnull
  by_cases hmember : op.isMembership = true
  · exact comesBack_membership hmember hflat
  by_cases hrange : op.isRange = true
  · exact comesBack_range hrange hflat
  by_cases htext : op.isTextMatch = true
  · exact comesBack_textMatch htext
  · refine comesBack_comparison (Operator.isComparison_iff.mpr ?_) hflat
    simp only [Bool.not_eq_true] at hnull hmember hrange htext
    exact ⟨hnull, hmember, hrange, htext⟩

/-- A rule is written as an object that is read as the rule it comes back as, or as null. -/
theorem writeRule_returned (policy : NumberPolicy) (hop : r.operator? = some op)
    (hflat : r.value.isFlat = true) :
    match returned? op r with
    | none => writeRule (.usual .jsonlogic) r = .ok .null
    | some r' => ∃ out, writeRule (.usual .jsonlogic) r = .ok out ∧
        Reads policy out (.rule r') := by
  have hback := comesBack policy op hflat
  rw [ComesBack] at hback
  rw [writeRule_usual hop]
  cases hreturned : returned? op r with
  | none =>
    rw [hreturned] at hback
    simp only [hback]
  | some r' =>
    rw [hreturned] at hback
    obtain ⟨object, hown, hreads⟩ := hback
    simp only [hown]
    exact ⟨_, rfl, hreads⟩

/-! ### Canonical rules -/

/-- A value from a source is read back as from that source. -/
theorem sourceOf_ofSource (h : source = .value ∨ source = .field) (id : Value) :
    sourceOf { Rule.ofSource source name op v with id := id } = source := by
  rcases h with rfl | rfl <;> rfl

theorem readBack_ofSource {w : Value} (h : repertoire.IsItem source w) (id : Value) :
    readBack { Rule.ofSource source name op v with id := id } w = w := by
  cases h <;> rfl

/-- A canonical rule comes back as it is, without its id. -/
theorem returned?_of_takes (h : repertoire.Takes op source v) (id : Value) :
    returned? op { Rule.ofSource source name op v with id := id } =
      some (Rule.ofSource source name op v) := by
  have hsource : sourceOf { Rule.ofSource source name op v with id := id } = source :=
    sourceOf_ofSource h.source_eq id
  cases h with
  | nullCheck hop => rw [returned?, if_pos hop]; rfl
  | comparison hop hv =>
    simp only [returned?, Operator.of_isComparison hop, Bool.false_eq_true, if_false]
    cases hv with
    | field => rfl
    | text | int | bool => cases op <;> rfl
  | textMatch hop hv =>
    simp only [returned?, Operator.of_isTextMatch hop, hop, Bool.false_eq_true, if_false, if_true]
    cases hv <;> rfl
  | @membership _ items hop hne hitems =>
    let r : Rule := { Rule.ofSource source name op (.list items) with id := id }
    have hback : items.map (readBack r) = items :=
      (List.map_congr_left fun w hw => readBack_ofSource (hitems w hw) id).trans (List.map_id items)
    have hvalue : r.value.toItems = items := Repertoire.toItems_of_isItem hitems
    obtain ⟨first, rest, rfl⟩ := List.exists_cons_of_ne_nil hne
    simp only [returned?, (Operator.of_isMembership hop).1, hop, Bool.false_eq_true, if_false,
      if_true]
    rw [hvalue, hsource]
    exact congrArg (fun items => some (Rule.ofSource source name op (.list items))) hback
  | @range _ low high hop hlow hhigh =>
    let r : Rule := { Rule.ofSource source name op (.list [low, high]) with id := id }
    have hbounds : r.value.bounds? = some (low, high) := Repertoire.bounds?_of_isItem hlow hhigh
    have hother := Operator.of_isRange hop
    simp only [returned?, hother.1, hother.2.1, hop, Bool.false_eq_true, if_false, if_true]
    rw [hbounds, hsource, Option.map_some, readBack_ofSource hlow id, readBack_ofSource hhigh id]
    rfl

theorem isFlat_of_takes (h : repertoire.Takes op source v) : v.isFlat = true := by
  have hplain : ∀ {w}, repertoire.IsItem source w → w.isPlain = true := fun hw => by
    cases hw <;> rfl
  cases h with
  | nullCheck => rfl
  | comparison _ hv => cases hv <;> rfl
  | textMatch _ hv => cases hv <;> rfl
  | membership _ _ hitems => exact List.all_eq_true.mpr fun w hw => hplain (hitems w hw)
  | range _ hlow hhigh => simp [Value.isFlat, hplain hlow, hplain hhigh]

/-- Canonical rules of every kind come back. -/
theorem exists_writeRule_of_takes (policy : NumberPolicy) (name : String)
    (h : repertoire.Takes op source v) (id : Value) :
    ∃ out, writeRule (.usual .jsonlogic) { Rule.ofSource source name op v with id := id } =
        .ok out ∧ Reads policy out (.rule (Rule.ofSource source name op v)) := by
  have hback := writeRule_returned policy (Rule.operator?_ofSource source name op v id)
    (isFlat_of_takes h)
  rwa [returned?_of_takes h] at hback

end

/-! ### Trees -/

/-- How JsonLogic is read. -/
def echo (policy : NumberPolicy) : Echo writer .jsonlogic traits repertoire where
  Reads := Reads policy
  whole := clause? (.arraysUnder policy)
  always := .bool false
  express := by decide
  isEmpty_of_reads h := h.isEmptyOutput
  rule {source field op v} id _ htakes := by
    obtain ⟨out, hout, hreads⟩ := exists_writeRule_of_takes policy field htakes id
    refine ⟨out, _, fun context => ?_, hreads, Clause.builds_rule _⟩
    simp only [writer, hout]
    rfl
  range _ hpairs := by cases hpairs
  group _ _ _ hreads := exists_joinGroup _ _ hreads
  root {negated j children outs head cs} _ hdistinct hbuilds hreads := by
    obtain ⟨out, hout, hroot⟩ := exists_joinGroup j negated hreads
    refine ⟨out, _, hout, hroot.isEmptyOutput, hroot.clause?, Clause.isConstant_join hbuilds, ?_⟩
    cases negated with
    | true => rfl
    | false =>
      exact Clause.unwrapRoot_join rfl hbuilds fun hlone => hdistinct rfl rfl hlone.of_withoutIds
  blank := rfl

/-! ### Number policies -/

section
variable {policy : NumberPolicy}

/-- A value that the policy leaves alone is written as it is. -/
theorem operand_of_keeps {r : Rule} {v : Value}
    (h : r.comparesFields = false → v.withNumbers policy = v) :
    operand (FormatPlan.usualUnder policy .jsonlogic).style r v =
      operand (FormatPlan.usual .jsonlogic).style r v := by
  rw [operand, operand]
  split
  · rfl
  · next hfield => exact (h (Bool.eq_false_iff.mpr hfield)).trans (Value.withNumbers_never v).symm

theorem readsNumbers_eq {r : Rule} {op : Operator} (hoperator : r.operator? = some op)
    (htext : op.isTextMatch = false) (hfields : r.comparesFields = false) :
    readsNumbers r = true := by
  rw [Clause.readsNumbers_eq hoperator htext, hfields, Bool.not_false]

theorem ownRule_of_keeps {r : Rule} {source : ValueSource} {op : Operator}
    (hoperator : r.operator? = some op) (h : repertoire.Takes op source r.value)
    (hkeeps : r.Keeps policy) :
    ownRule (FormatPlan.usualUnder policy .jsonlogic).style op r =
      ownRule (FormatPlan.usual .jsonlogic).style op r := by
  generalize hvalue : r.value = v at h
  cases h with
  | nullCheck hop => rw [ownRule, ownRule, if_pos hop, if_pos hop]
  | comparison hop hv =>
    have hother := Operator.of_isComparison hop
    have hsingle : singleValue (FormatPlan.usualUnder policy .jsonlogic).style op r =
        singleValue (FormatPlan.usual .jsonlogic).style op r := by
      simp only [singleValue, hother, hvalue, Bool.false_and, Bool.false_eq_true, if_false]
      refine operand_of_keeps fun hfields => hkeeps v ?_
      rw [Rule.literals, if_pos (readsNumbers_eq hoperator hother.2.2.2 hfields), hvalue]
      cases hv <;> exact List.mem_singleton_self _
    simp only [ownRule, hother, hsingle, Bool.false_eq_true, if_false]
  | textMatch hop hv =>
    have hother := Operator.of_isTextMatch hop
    have hsingle : singleValue (FormatPlan.usualUnder policy .jsonlogic).style op r =
        singleValue (FormatPlan.usual .jsonlogic).style op r := by
      rw [singleValue, singleValue]
      split
      · rfl
      · next hfields => exact operand_of_keeps fun hfalse => absurd (by simp [hop, hfalse]) hfields
    simp only [ownRule, hother, hsingle, Bool.false_eq_true, if_false]
  | @membership _ items hop hne hitems =>
    have hsame : items.map (operand (FormatPlan.usualUnder policy .jsonlogic).style r) =
        items.map (operand (FormatPlan.usual .jsonlogic).style r) :=
      List.map_congr_left fun item hitem => operand_of_keeps fun hfields => by
        refine hkeeps item ?_
        rwa [Rule.literals, if_pos (readsNumbers_eq hoperator (by cases op <;> cases hop <;> rfl)
          hfields), hvalue]
    obtain ⟨first, rest, rfl⟩ := List.exists_cons_of_ne_nil hne
    simp only [ownRule, hop, hvalue, Repertoire.toItems_of_isItem hitems, hsame, if_true]
  | @range _ low high hop hlow hhigh =>
    have hsame : ∀ bound ∈ [low, high],
        operand (FormatPlan.usualUnder policy .jsonlogic).style r bound =
          operand (FormatPlan.usual .jsonlogic).style r bound :=
      fun bound hbound => operand_of_keeps fun hfields => by
        refine hkeeps bound ?_
        rwa [Rule.literals, if_pos (readsNumbers_eq hoperator (by cases op <;> cases hop <;> rfl)
          hfields), hvalue]
    have hbounds := Repertoire.bounds?_of_isItem hlow hhigh
    simp only [ownRule, hvalue, hbounds, Option.map_some, hsame low (by simp), hsame high (by simp),
      (Operator.of_isRange hop).2.1, hop, Bool.false_eq_true, if_false, if_true]

/-- A canonical rule whose literals the policy leaves alone is written as without
a policy. -/
theorem writeRule_of_keeps {r : Rule} (h : r.Canonical repertoire) (hkeeps : r.Keeps policy) :
    writeRule (.usualUnder policy .jsonlogic) r = writeRule (.usual .jsonlogic) r := by
  obtain @⟨source, field, op, v, id, -, htakes⟩ := h
  have hoperator := Rule.operator?_ofSource source field op v id
  have hown := ownRule_of_keeps hoperator htakes hkeeps
  have hruleOperator : Language.ruleOperator .jsonlogic
      { Rule.ofSource source field op v with id := id } = .ok op := by
    rw [Language.ruleOperator, hoperator]
  have hsupplied : ∀ plan : FormatPlan, plan.valueHook = .absent →
      plan.suppliedValue { Rule.ofSource source field op v with id := id } op = .ok none := by
    intro plan hplan
    rw [FormatPlan.suppliedValue, hplan]
    split <;> rfl
  rw [writeRule, writeRule, hruleOperator, Result.ok_bind, Result.ok_bind, hsupplied _ rfl,
    hsupplied _ rfl, Result.ok_bind, Result.ok_bind, hown]

end

end JsonLogic

/-- **Round trip.**  Every tree that JsonLogic tells apart from others is read back
from its JsonLogic rule, under every number policy that leaves its literals
alone. -/
theorem reread_jsonlogic {numbers : Value} {policy : NumberPolicy}
    (hpolicy : NumberPolicy.ofValue numbers = .ok policy) {t : Node}
    (h : t.Canonical JsonLogic.repertoire true) (hkeeps : t.Keeps policy) :
    Query.rereadUnder numbers "jsonlogic" t = .ok t.withoutIds := by
  have hformat : FormatOptions.build (.name "jsonlogic") [("parse_numbers", .plain numbers)] =
      .ok { format := .text "jsonlogic", parseNumbers := numbers } := rfl
  have hplan : ({ format := .text "jsonlogic", parseNumbers := numbers } : FormatOptions).resolve =
      .ok (.usualUnder policy .jsonlogic) := by
    simp only [FormatOptions.resolve, hpolicy]
    rfl
  have hparse : ParseOptions.build .defaults
      [("parse_numbers", .plain numbers), ("lists_as_arrays", .plain (.bool true))] =
      .ok { parseNumbers := numbers, listsAsArrays := .bool true } := rfl
  have hparsePlan : ({ parseNumbers := numbers, listsAsArrays := .bool true } :
      ParseOptions).resolve = .ok (.arraysUnder policy) := by
    simp only [ParseOptions.resolve, hpolicy]
    rfl
  obtain ⟨output, hrun, hread⟩ := (JsonLogic.echo policy).roundTrip h
  have hrunUnder : JsonLogic.writer.run (.usualUnder policy .jsonlogic) t = .ok (output, {}) := by
    refine Eq.trans ?_ hrun
    have hvalidate : (FormatPlan.usualUnder policy .jsonlogic).validate =
        (FormatPlan.usual .jsonlogic).validate := rfl
    refine Writer.run_congr hvalidate rfl fun r hr => Writer.writeRule_congr fun context => ?_
    simp only [JsonLogic.writer, JsonLogic.writeRule_of_keeps (h.of_mem_rules r hr) (hkeeps r hr)]
  have hwrite : Query.write .jsonlogic (.usualUnder policy .jsonlogic) t =
      .ok (.value (output.getD (.bool false))) := by
    rw [Query.write, JsonLogic.format, Writer.within_none, hrunUnder]
    rfl
  have hreadUnder : JsonLogic.read (.arraysUnder policy) (output.getD (.bool false)) =
      .ok t.withoutIds := by
    obtain ⟨root, hroot, htree⟩ := Result.bind_eq_ok hread
    have hclause : JsonLogic.clause? (.arraysUnder policy) (output.getD (.bool false)) = .ok root :=
      hroot
    rw [JsonLogic.read, hclause]
    exact Clause.toTree_of_keeps rfl htree hkeeps.withoutIds
  have hinput : Query.ofInput t = .ok t := by
    cases h
    rfl
  have hout : Query.format { format := .text "jsonlogic", parseNumbers := numbers } t =
      .ok (.value (output.getD (.bool false))) := by
    rw [Query.format, hplan, Result.ok_bind, hinput]
    exact hwrite
  have hback : Query.parse (.value (output.getD (.bool false))) (.text "jsonlogic") .defaults
      [("parse_numbers", .plain numbers), ("lists_as_arrays", .plain (.bool true))] =
      .ok t.withoutIds := by
    have hreader : Query.reader (.text "jsonlogic") = .ok ("jsonlogic", JsonLogic.read) := rfl
    rw [Query.parse, hreader, Result.ok_bind]
    dsimp only
    rw [hparse, Result.ok_bind, hparsePlan]
    exact hreadUnder
  rw [Query.rereadUnder, hformat, Result.ok_bind, hout, Result.ok_bind, hplan]
  exact hback

/-- Under the policy that converts most, the numbers of the tree and the text of its
text match stay as they are. -/
theorem reread_jsonlogic_specimen :
    NumberPolicy.ofValue (.text "always") = .ok .always ∧ Node.specimen.Keeps .always ∧
      Query.rereadUnder (.text "always") "jsonlogic" Node.specimen =
        .ok Node.specimen.withoutIds := by
  have hpolicy : NumberPolicy.ofValue (.text "always") = .ok .always := rfl
  have hcanonical : Node.specimen.Canonical JsonLogic.repertoire true := by
    have hlisted : ∀ name ∈ ["grade", "level"], name ≠ "" ∧ Text.trim name = name := by decide
    exact Node.canonical_specimen (fun _ _ => trivial) hlisted trivial fun _ _ _ hlone => by
      simp [Node.IsLoneNegation] at hlone
  have hkeeps : Node.specimen.Keeps .always := by
    have hints : ∀ v ∈ [Value.int 18, Value.int 65], v.withNumbers .always = v := by
      simp [Value.withNumbers]
    have hnone : ∀ v ∈ ([] : List Value), v.withNumbers .always = v := by simp
    simp only [Node.Keeps, Node.specimen, Node.rules_group, Node.rules_rule, List.flatMap_cons,
      List.flatMap_nil, List.append_nil, List.singleton_append]
    exact List.forall_mem_cons.mpr ⟨hnone, List.forall_mem_cons.mpr
      ⟨hints, List.forall_mem_singleton.mpr hnone⟩⟩
  exact ⟨hpolicy, hkeeps, reread_jsonlogic hpolicy hcanonical hkeeps⟩

end RuleTree
