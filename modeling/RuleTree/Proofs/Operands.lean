import RuleTree.Proofs.Clauses

/-! # What writers look at

Of the value of a rule a writer takes the operands that the operator has in it and nothing
else: the items of a membership, the two bounds of a range, and any other value as it is.
How the operator is spelled and what stores the items is all the same to it, as long as the
operands are the same (`Rule.Alike`).  A number policy is asked about literals alone, and
changes nothing where it takes no text among them for a number (`Rule.SparedBy`).  So a
rule is written with configured fields as one with the same operands is written without, and
there is such a rule with its operator and its values in their usual form, if a dialect takes
the operands (`Rule.Suits.exists_alike`).
-/
namespace RuleTree

/-! ### Operands -/

/-- The values that an operator takes of the value of a rule. -/
def Operator.operandsOf (op : Operator) (v : Value) : List Value :=
  if op.isNullCheck then []
  else if op.isMembership then v.toItems
  else if op.isRange then
    match v.bounds? with
    | some (low, high) => [low, high]
    | none => []
  else [v]

namespace Operator
variable {op : Operator} {v w : Value}

theorem isNullCheck_eq_false (hnull : op ≠ .null) (hnotNull : op ≠ .notNull) :
    op.isNullCheck = false := by
  cases op <;> first | rfl | exact absurd rfl hnull | exact absurd rfl hnotNull

theorem operandsOf_of_isNullCheck (h : op.isNullCheck = true) : op.operandsOf v = [] := by
  rw [operandsOf, h]
  rfl

theorem operandsOf_of_isMembership (h : op.isMembership = true) : op.operandsOf v = v.toItems := by
  rw [operandsOf, (of_isMembership h).1, h]
  rfl

theorem operandsOf_of_isRange (h : op.isRange = true) :
    op.operandsOf v = match v.bounds? with
      | some (low, high) => [low, high]
      | none => [] := by
  obtain ⟨hnull, hmember, -⟩ := of_isRange h
  rw [operandsOf, hnull, hmember, h]
  rfl

theorem operandsOf_single (hnull : op.isNullCheck = false) (hmember : op.isMembership = false)
    (hrange : op.isRange = false) : op.operandsOf v = [v] := by
  rw [operandsOf, hnull, hmember, hrange]
  rfl

/-- The bounds of a range are its operands. -/
theorem bounds?_eq_of_operandsOf (h : op.isRange = true)
    (hoperands : op.operandsOf v = op.operandsOf w) : v.bounds? = w.bounds? := by
  rw [operandsOf_of_isRange h, operandsOf_of_isRange h] at hoperands
  generalize v.bounds? = bounds at hoperands
  generalize w.bounds? = bounds' at hoperands
  cases bounds <;> cases bounds' <;> simp_all [Prod.ext_iff]

end Operator

namespace Rule

/-- Rules with one operator, however it is spelled, on one field, with the same operands.
A null check has none, so it is no matter to it what they would have been. -/
structure Alike (op : Operator) (r r' : Rule) : Prop where
  operator : r.operator? = some op
  operator' : r'.operator? = some op
  field : r.field = r'.field
  fields : op.isNullCheck = false → r.comparesFields = r'.comparesFields
  operands : op.operandsOf r.value = op.operandsOf r'.value

namespace Alike
variable {op : Operator} {r r' : Rule} (h : r.Alike op r')
include h

theorem toItems (hmember : op.isMembership = true) : r.value.toItems = r'.value.toItems := by
  have hoperands := h.operands
  rwa [Operator.operandsOf_of_isMembership hmember,
    Operator.operandsOf_of_isMembership hmember] at hoperands

theorem bounds? (hrange : op.isRange = true) : r.value.bounds? = r'.value.bounds? :=
  Operator.bounds?_eq_of_operandsOf hrange h.operands

theorem value (hnull : op.isNullCheck = false) (hmember : op.isMembership = false)
    (hrange : op.isRange = false) : r.value = r'.value := by
  have hoperands := h.operands
  rw [Operator.operandsOf_single hnull hmember hrange,
    Operator.operandsOf_single hnull hmember hrange] at hoperands
  exact (List.cons.inj hoperands).1

end Alike
end Rule

/-! ### Numbers -/

/-- The policy takes the value for a number only if it is one. -/
def NumberPolicy.Spares (policy : NumberPolicy) (v : Value) : Prop :=
  v.rendersAsNumber policy = v.rendersAsNumber .never

namespace NumberPolicy.Spares
variable {policy : NumberPolicy} {v : Value}

variable (h : policy.Spares v)
include h

theorem withNumbers : v.withNumbers policy = v := by
  cases v with
  | text s =>
    have haccepts : policy.accepts s.toList = false := h
    have hnumeral : policy.numeral? s.toList = none := if_neg (by simp [haccepts])
    have hconvert : policy.convert? s.toList = none := by
      rw [NumberPolicy.convert?, hnumeral]
      rfl
    rw [Value.withNumbers, hconvert]
  | _ => rfl

theorem sqlLiteral : Sql.literal policy v = Sql.literal .never v := by
  unfold Sql.literal
  split
  · rfl
  · rfl
  · rw [h, h.withNumbers, Value.withNumbers_never]

theorem languageLiteral (l : Language) : l.literal policy v = l.literal .never v := by
  unfold Language.literal
  split
  · rfl
  · rfl
  · rw [h, h.withNumbers, Value.withNumbers_never]

end NumberPolicy.Spares

/-- The policy takes no literal of the rule for a number that is none.  Names and texts to
match are not literals that it is asked about. -/
def Rule.SparedBy (policy : NumberPolicy) (op : Operator) (r : Rule) : Prop :=
  r.comparesFields = false → op.isTextMatch = false → ∀ v ∈ op.operandsOf r.value, policy.Spares v

namespace Rule.SparedBy
variable {policy : NumberPolicy} {op : Operator} {r : Rule} (h : r.SparedBy policy op)
  (hvalues : r.comparesFields = false)
include h hvalues

theorem items (hmember : op.isMembership = true) : ∀ v ∈ r.value.toItems, policy.Spares v := by
  have hall := h hvalues (by cases op <;> cases hmember <;> rfl)
  rwa [Operator.operandsOf_of_isMembership hmember] at hall

theorem bounds (hrange : op.isRange = true) {low high : Value}
    (hbounds : r.value.bounds? = some (low, high)) : policy.Spares low ∧ policy.Spares high := by
  have hall := h hvalues (by cases op <;> cases hrange <;> rfl)
  rw [Operator.operandsOf_of_isRange hrange, hbounds] at hall
  exact ⟨hall low (by simp), hall high (by simp)⟩

theorem single (hnull : op.isNullCheck = false) (hmember : op.isMembership = false)
    (hrange : op.isRange = false) (htext : op.isTextMatch = false) : policy.Spares r.value := by
  have hall := h hvalues htext
  rw [Operator.operandsOf_single hnull hmember hrange] at hall
  exact hall _ (List.mem_singleton_self _)

end Rule.SparedBy

/-! ### Writers -/

/-- Writing in a dialect with configured fields, under a number policy. -/
def FormatPlan.configured (table : FieldTable) (policy : NumberPolicy) (dialect : Dialect) :
    FormatPlan :=
  { style := { format := .dialect dialect, policy := policy, fields := table } }

section
variable {table : FieldTable} {policy : NumberPolicy} {op : Operator} {r r' : Rule}
  (h : r.Alike op r')
include h

namespace Sql

theorem otherFields_of_alike (hnull : op.isNullCheck = false) :
    otherFields (FormatPlan.configured table policy .sql).style (some op) r.value =
      otherFields (FormatPlan.usual .sql).style (some op) r'.value := by
  have hname : fieldText (FormatPlan.configured table policy .sql).style =
      fieldText (FormatPlan.usual .sql).style := rfl
  have hconcat : concatenate (FormatPlan.configured table policy .sql).style =
      concatenate (FormatPlan.usual .sql).style := rfl
  unfold otherFields
  rw [hname, hconcat]
  cases hmember : op.isMembership with
  | true => simp only [hmember, h.toItems hmember, if_true]
  | false =>
    cases hrange : op.isRange with
    | true => simp only [hmember, hrange, h.bounds? hrange, Bool.false_eq_true, if_false, if_true]
    | false => rw [h.value hnull hmember hrange]

theorem valueText_of_alike (hspared : r.SparedBy policy op) (hnull : op.isNullCheck = false) :
    valueText r (FormatPlan.configured table policy .sql).style =
      valueText r' (FormatPlan.usual .sql).style := by
  unfold valueText
  rw [h.operator, h.operator', ← h.fields hnull]
  cases hfields : r.comparesFields with
  | true => exact otherFields_of_alike h hnull
  | false =>
    have hstyle : (FormatPlan.configured table policy .sql).style.policy = policy ∧
        (FormatPlan.usual .sql).style.policy = .never := ⟨rfl, rfl⟩
    simp only [hnull, hstyle, Bool.false_eq_true, if_false]
    cases hmember : op.isMembership with
    | true =>
      have hitems : r.value.toItems.map (literal policy) = r.value.toItems.map (literal .never) :=
        List.map_congr_left fun v hv => (hspared.items hfields hmember v hv).sqlLiteral
      rw [← h.toItems hmember]
      cases hvalue : r.value.toItems with
      | nil => rfl
      | cons item items =>
        rw [hvalue] at hitems
        simp only [hitems, if_true]
    | false =>
      cases hrange : op.isRange with
      | true =>
        rw [← h.bounds? hrange]
        cases hbounds : r.value.bounds? with
        | none => rfl
        | some bounds =>
          obtain ⟨hlow, hhigh⟩ := hspared.bounds hfields hrange hbounds
          simp only [hlow.sqlLiteral, hhigh.sqlLiteral, Bool.false_eq_true, if_false, if_true]
      | false =>
        rw [← h.value hnull hmember hrange]
        cases htext : op.isTextMatch with
        | true => rfl
        | false =>
          have hsingle := hspared.single hfields hnull hmember hrange htext
          simp only [hsingle.sqlLiteral, Bool.false_eq_true, if_false]

/-- Conditions are written of the operands. -/
theorem plainRule_of_alike (hspared : r.SparedBy policy op) :
    plainRule (.configured table policy .sql) r = plainRule (.usual .sql) r' := by
  have hname : fieldText (FormatPlan.configured table policy .sql).style =
      fieldText (FormatPlan.usual .sql).style := rfl
  rw [plainRule, plainRule, Rule.resolve_of_operator? h.operator,
    Rule.resolve_of_operator? h.operator', Result.ok_bind, Result.ok_bind, hname, h.field]
  dsimp only
  cases hnull : op.isNullCheck with
  | true => rfl
  | false =>
    have hvalue : ruleValue (.configured table policy .sql) r = ruleValue (.usual .sql) r' :=
      congrArg (Except.map Value.text) (valueText_of_alike h hspared hnull)
    rw [hvalue]

end Sql

namespace Language
variable (l : Language)

theorem ownRule_of_alike (hspared : r.SparedBy policy op) (hnull : op.isNullCheck = false)
    (field spelling : String) :
    l.ownRule (FormatPlan.configured table policy l.dialect).style op field spelling r =
      l.ownRule (FormatPlan.usual l.dialect).style op field spelling r' := by
  have hoperand (v : Value) (hv : r.comparesFields = false → policy.Spares v) :
      l.operand (FormatPlan.configured table policy l.dialect).style r v =
        l.operand (FormatPlan.usual l.dialect).style r' v := by
    unfold operand
    rw [← h.fields hnull]
    split
    · rfl
    · rename_i hfields
      exact (hv (by simpa using hfields)).languageLiteral l
  unfold ownRule
  cases hmember : op.isMembership with
  | true =>
    have hitems := List.map_congr_left fun v hv =>
      hoperand v fun hfields => hspared.items hfields hmember v hv
    rw [← h.toItems hmember]
    cases hvalue : r.value.toItems with
    | nil => rfl
    | cons item items =>
      rw [hvalue] at hitems
      simp only [hitems, if_true]
  | false =>
    cases hrange : op.isRange with
    | true =>
      rw [← h.bounds? hrange]
      cases hbounds : r.value.bounds? with
      | none => rfl
      | some bounds =>
        have hlow := hoperand bounds.1 fun hfields => (hspared.bounds hfields hrange hbounds).1
        have hhigh := hoperand bounds.2 fun hfields => (hspared.bounds hfields hrange hbounds).2
        simp only [hlow, hhigh, Bool.false_eq_true, if_false, if_true]
    | false =>
      have hsingle : l.singleValue (FormatPlan.configured table policy l.dialect).style op r =
          l.singleValue (FormatPlan.usual l.dialect).style op r' := by
        unfold singleValue
        rw [← h.value hnull hmember hrange, ← h.fields hnull]
        split
        · rfl
        · rename_i hliteral
          refine hoperand _ fun hfields => hspared.single hfields hnull hmember hrange ?_
          simpa [hfields] using hliteral
      simp only [hsingle, Bool.false_eq_true, if_false]

/-- Expressions are written of the operands. -/
theorem writeRule_of_alike (hspared : r.SparedBy policy op) :
    l.writeRule (.configured table policy l.dialect) r = l.writeRule (.usual l.dialect) r' := by
  rw [writeRule, writeRule, ruleOperator, ruleOperator, h.operator, h.operator', h.field,
    Result.ok_bind, Result.ok_bind]
  refine Result.bind_congr fun spelling _ => ?_
  rw [FormatPlan.suppliedValue_of_absent rfl, FormatPlan.suppliedValue_of_absent rfl]
  dsimp only
  split
  · rfl
  split
  · rfl
  · rename_i hnull hnotNull
    simp only [Result.ok_bind,
      ownRule_of_alike h l hspared (Operator.isNullCheck_eq_false hnull hnotNull)]

end Language

namespace JsonLogic

theorem ownRule_of_alike (hspared : r.SparedBy policy op) :
    ownRule (FormatPlan.configured table policy .jsonlogic).style op r =
      ownRule (FormatPlan.usual .jsonlogic).style op r' := by
  unfold ownRule
  rw [h.field]
  cases hnull : op.isNullCheck with
  | true => rfl
  | false =>
    have hoperand (v : Value) (hv : r.comparesFields = false → policy.Spares v) :
        operand (FormatPlan.configured table policy .jsonlogic).style r v =
          operand (FormatPlan.usual .jsonlogic).style r' v := by
      unfold operand
      rw [← h.fields hnull]
      split
      · rfl
      · rename_i hfields
        have hspares := hv (by simpa using hfields)
        exact hspares.withNumbers.trans (Value.withNumbers_never v).symm
    cases hmember : op.isMembership with
    | true =>
      have hitems := List.map_congr_left fun v hv =>
        hoperand v fun hfields => hspared.items hfields hmember v hv
      rw [← h.toItems hmember]
      cases hvalue : r.value.toItems with
      | nil => rfl
      | cons item items =>
        rw [hvalue] at hitems
        simp only [hitems, Bool.false_eq_true, if_false, if_true]
    | false =>
      cases hrange : op.isRange with
      | true =>
        rw [← h.bounds? hrange]
        cases hbounds : r.value.bounds? with
        | none => rfl
        | some bounds =>
          have hlow := hoperand bounds.1 fun hfields => (hspared.bounds hfields hrange hbounds).1
          have hhigh := hoperand bounds.2 fun hfields => (hspared.bounds hfields hrange hbounds).2
          simp only [Option.map_some, hlow, hhigh, Bool.false_eq_true, if_false, if_true]
      | false =>
        have hsingle : singleValue (FormatPlan.configured table policy .jsonlogic).style op r =
            singleValue (FormatPlan.usual .jsonlogic).style op r' := by
          unfold singleValue
          rw [← h.value hnull hmember hrange, ← h.fields hnull]
          split
          · rfl
          · rename_i hliteral
            refine hoperand _ fun hfields => hspared.single hfields hnull hmember hrange ?_
            simpa [hfields] using hliteral
        simp only [hsingle, Bool.false_eq_true, if_false]

/-- JsonLogic rules are written of the operands. -/
theorem writeRule_of_alike (hspared : r.SparedBy policy op) :
    writeRule (.configured table policy .jsonlogic) r = writeRule (.usual .jsonlogic) r' := by
  rw [writeRule, writeRule, Language.ruleOperator, Language.ruleOperator, h.operator, h.operator',
    Result.ok_bind, Result.ok_bind, FormatPlan.suppliedValue_of_absent rfl,
    FormatPlan.suppliedValue_of_absent rfl, Result.ok_bind, Result.ok_bind]
  simp only [ownRule_of_alike h hspared]

end JsonLogic

namespace Mongo

theorem fieldComparison_of_alike (hnull : op.isNullCheck = false) :
    fieldComparison op r = fieldComparison op r' := by
  unfold fieldComparison
  rw [h.field]
  cases hmember : op.isMembership with
  | true => simp only [h.toItems hmember, if_true]
  | false =>
    cases hrange : op.isRange with
    | true => simp only [h.bounds? hrange, Bool.false_eq_true, if_false, if_true]
    | false => rw [h.value hnull hmember hrange]

theorem ownRule_of_alike (hspared : r.SparedBy policy op) (hnull : op.isNullCheck = false)
    (hvalues : r.comparesFields = false) :
    ownRule policy op r.value = ownRule .never op r'.value := by
  have hnumbers {v : Value} (hv : policy.Spares v) : v.withNumbers policy = v.withNumbers .never :=
    hv.withNumbers.trans (Value.withNumbers_never v).symm
  unfold ownRule
  cases hmember : op.isMembership with
  | true =>
    have hitems := List.map_congr_left fun v hv => hnumbers (hspared.items hvalues hmember v hv)
    rw [← h.toItems hmember]
    cases hvalue : r.value.toItems with
    | nil => rfl
    | cons item items =>
      rw [hvalue] at hitems
      simp only [hitems, if_true]
  | false =>
    cases hrange : op.isRange with
    | true =>
      rw [← h.bounds? hrange]
      cases hbounds : r.value.bounds? with
      | none => rfl
      | some bounds =>
        obtain ⟨hlow, hhigh⟩ := hspared.bounds hvalues hrange hbounds
        simp only [Option.map_some, hnumbers hlow, hnumbers hhigh, Bool.false_eq_true, if_false,
          if_true]
    | false =>
      rw [← h.value hnull hmember hrange]
      cases htext : op.isTextMatch with
      | true => rfl
      | false =>
        have hsingle := hspared.single hvalues hnull hmember hrange htext
        simp only [hnumbers hsingle, Bool.false_eq_true, if_false]

/-- Documents are written of the operands, if null checks have no others. -/
theorem writeRule_of_alike (hspared : r.SparedBy policy op)
    (hfields : r.comparesFields = r'.comparesFields)
    (hcheck : op.isNullCheck = true → r.comparesFields = false) :
    writeRule (.configured table policy .mongodb) r = writeRule (.usual .mongodb) r' := by
  rw [writeRule, writeRule, Language.ruleOperator, Language.ruleOperator, h.operator, h.operator',
    Result.ok_bind, Result.ok_bind, ← hfields, h.field]
  cases hvalues : r.comparesFields with
  | true =>
    have hnull : op.isNullCheck = false := by
      cases hnull : op.isNullCheck with
      | false => rfl
      | true => rw [hcheck hnull] at hvalues; cases hvalues
    exact fieldComparison_of_alike h hnull
  | false =>
    have hcondition : condition? (.configured table policy .mongodb) op r =
        condition? (.usual .mongodb) op r' := by
      unfold condition?
      rw [FormatPlan.suppliedValue_of_absent rfl, FormatPlan.suppliedValue_of_absent rfl]
      split
      · rfl
      split
      · rfl
      · rename_i hnull hnotNull
        have hvalue : op.isNullCheck = false := Operator.isNullCheck_eq_false hnull hnotNull
        exact congrArg Except.ok (ownRule_of_alike h hspared hvalue hvalues)
    simp only [hcondition, Bool.false_eq_true, if_false]

end Mongo

end

/-! ### Rules of a repertoire -/

/-- The operands that an operator takes from a source. -/
def Repertoire.Suits (d : Repertoire) (op : Operator) (source : ValueSource) (v : Value) : Prop :=
  if op.isTextMatch then d.IsMatched op source v
  else if op.isComparison then d.IsScalar source v
  else d.IsItem source v

namespace Rule

/-- Whether the operands are literals or the names of other fields. -/
def origin (r : Rule) : ValueSource := if r.comparesFields then .field else .value

theorem isField_origin (r : Rule) : r.origin.isField = r.comparesFields := by
  rw [origin]
  cases r.comparesFields <;> rfl

/-- The field of the rule has a name of the dialect, and its operands are such as the
operator takes there.  A multi-value rule may have none. -/
structure Suits (d : Repertoire) (op : Operator) (r : Rule) : Prop where
  operator : r.operator? = some op
  name : ∃ name, r.field = .text name ∧ d.IsName name
  operands : ∀ v ∈ op.operandsOf r.value, d.Suits op r.origin v

section
variable {d : Repertoire} {op : Operator} {r : Rule}

/-- A rule with the operands, canonically spelled and with its values from the origin. -/
theorem alike_ofSource (hoperator : r.operator? = some op) {name : String}
    (hfield : r.field = .text name) {v : Value}
    (hoperands : op.operandsOf r.value = op.operandsOf v) :
    r.Alike op (ofSource r.origin name op v) :=
  ⟨hoperator, Operator.ofValue?_toValue op, hfield, fun _ => r.isField_origin.symm, hoperands⟩

/-- The items of a membership are a list that it takes, unless there are none. -/
theorem Suits.membership (h : r.Suits d op) (hmember : op.isMembership = true) :
    op.operandsOf r.value = op.operandsOf (.list r.value.toItems) ∧
      (d.Takes op r.origin (.list r.value.toItems) ∨ r.value.toItems = []) := by
  have hkind : op.isTextMatch = false ∧ op.isComparison = false := by
    cases op <;> cases hmember <;> exact ⟨rfl, rfl⟩
  have hitems : ∀ v ∈ r.value.toItems, d.IsItem r.origin v := by
    simpa [Operator.operandsOf_of_isMembership hmember, Repertoire.Suits, hkind] using h.operands
  refine ⟨?_, ?_⟩
  · rw [Operator.operandsOf_of_isMembership hmember, Operator.operandsOf_of_isMembership hmember,
      Repertoire.toItems_of_isItem hitems]
  · by_cases hne : r.value.toItems = []
    · exact .inr hne
    · exact .inl (.membership hmember hne hitems)

/-- The bounds of a range are a list that it takes. -/
theorem Suits.range (h : r.Suits d op) (hrange : op.isRange = true) {low high : Value}
    (hbounds : r.value.bounds? = some (low, high)) :
    op.operandsOf r.value = op.operandsOf (.list [low, high]) ∧
      d.Takes op r.origin (.list [low, high]) := by
  have hkind : op.isTextMatch = false ∧ op.isComparison = false := by
    cases op <;> cases hrange <;> exact ⟨rfl, rfl⟩
  obtain ⟨hlow, hhigh⟩ : d.IsItem r.origin low ∧ d.IsItem r.origin high := by
    simpa [Operator.operandsOf_of_isRange hrange, hbounds, Repertoire.Suits, hkind] using h.operands
  refine ⟨?_, .range hrange hlow hhigh⟩
  rw [Operator.operandsOf_of_isRange hrange, Operator.operandsOf_of_isRange hrange, hbounds,
    Repertoire.bounds?_of_isItem hlow hhigh]

/-- A single value is one that the operator takes. -/
theorem Suits.single (h : r.Suits d op) (hnull : op.isNullCheck = false)
    (hmember : op.isMembership = false) (hrange : op.isRange = false) :
    d.Takes op r.origin r.value := by
  have hoperands := h.operands
  rw [Operator.operandsOf_single hnull hmember hrange] at hoperands
  have hvalue := hoperands _ (List.mem_singleton_self _)
  cases htext : op.isTextMatch with
  | true =>
    rw [Repertoire.Suits, htext] at hvalue
    exact .textMatch htext hvalue
  | false =>
    have hcomparison : op.isComparison = true :=
      Operator.isComparison_iff.mpr ⟨hnull, hmember, hrange, htext⟩
    rw [Repertoire.Suits, htext, hcomparison] at hvalue
    exact .comparison hcomparison hvalue

/-- **Operands.**  A rule is like one with the canonical name of the operator and a value
that the operator takes, or with the empty list where there is no operand. -/
theorem Suits.exists_alike (h : r.Suits d op) :
    ∃ (name : String) (v : Value) (source : ValueSource), d.IsName name ∧
      source = (if op.isNullCheck then .value else r.origin) ∧
      r.Alike op (ofSource source name op v) ∧
      (d.Takes op source v ∨ (op.isMembership || op.isRange) = true ∧ v = .list []) := by
  obtain ⟨name, hfield, hname⟩ := h.name
  cases hnull : op.isNullCheck with
  | true =>
    have hnone (v : Value) : op.operandsOf v = [] := Operator.operandsOf_of_isNullCheck hnull
    refine ⟨name, .null, .value, hname, rfl, ⟨h.operator, Operator.ofValue?_toValue op, hfield,
      fun hother => ?_, ?_⟩, .inl (.nullCheck hnull)⟩
    · cases hnull.symm.trans hother
    · rw [hnone, hnone]
  | false =>
    cases hmember : op.isMembership with
    | true =>
      obtain ⟨hoperands, htakes⟩ := h.membership hmember
      exact ⟨name, .list r.value.toItems, r.origin, hname, rfl,
        alike_ofSource h.operator hfield hoperands,
        htakes.imp_right fun hnone => ⟨rfl, by rw [hnone]⟩⟩
    | false =>
      cases hrange : op.isRange with
      | false => exact ⟨name, r.value, r.origin, hname, rfl,
          alike_ofSource h.operator hfield rfl, .inl (h.single hnull hmember hrange)⟩
      | true =>
        cases hbounds : r.value.bounds? with
        | some bounds =>
          obtain ⟨hoperands, htakes⟩ := h.range hrange hbounds
          exact ⟨name, _, r.origin, hname, rfl, alike_ofSource h.operator hfield hoperands,
            .inl htakes⟩
        | none =>
          refine ⟨name, .list [], r.origin, hname, rfl, alike_ofSource h.operator hfield ?_,
            .inr ⟨rfl, rfl⟩⟩
          rw [Operator.operandsOf_of_isRange hrange, Operator.operandsOf_of_isRange hrange, hbounds]
          rfl

end
end Rule
end RuleTree
