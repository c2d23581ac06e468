import RuleTree.Proofs.Outputs
import RuleTree.Query

/-! # What a search filter says

A filter says what the tree that it is written of says (`Query.format_filter`).  It
holds if all conditions under `must` do, none under `must_not`, and one of those under
`should` if there are any; a rule says its test of a payload key, or the contrary
(`Qdrant.Assignment.rule?`).  The parts of an `and` group may be merged since a part
without `should` is a conjunction, and a part with one is nested (`Qdrant.merge_says`);
a branch of an `or` group is a condition of its own unless it is a lone `must`
(`Qdrant.branchOf_says`).
-/
namespace RuleTree
namespace Qdrant

/-! ### Filters -/

/-- Truth values for the tests of payload keys, and for conditions that callers write. -/
structure Assignment where
  test : String → Test → Bool
  given : Value → Bool

section
variable (σ : Assignment)

mutual
/-- Whether a filter holds: everything that must, nothing that must not, and
something that should if anything should. -/
def Filter.holds : Filter → Bool
  | .clauses must should mustNot =>
    ((clauseTruths must).getD []).all id && ((clauseTruths should).getD [true]).any id
      && !((clauseTruths mustNot).getD []).any id

/-- Whether a condition holds. -/
def Condition.holds : Condition → Bool
  | .test key t => σ.test key t
  | .nested f => f.holds
  | .given v => σ.given v

/-- The truth values of the conditions of a clause, if it is present. -/
def clauseTruths : Option (List Condition) → Option (List Bool)
  | none => none
  | some conditions => some (truths conditions)

/-- The truth values of conditions. -/
def truths : List Condition → List Bool
  | [] => []
  | condition :: rest => condition.holds :: truths rest
end

theorem truths_eq_map (conditions : List Condition) :
    truths σ conditions = conditions.map (Condition.holds σ) := by
  induction conditions with
  | nil => rfl
  | cons condition rest ih => rw [truths, ih, List.map_cons]

/-- Whether an operator holds of a key, by the test that it makes or negates. -/
def Assignment.holds : Operator → String → Test → Bool
  | .ne, key, t | .notIn, key, t | .notBetween, key, t | .notNull, key, t
  | .doesNotContain, key, t => !σ.test key t
  | _, key, t => σ.test key t

end

/-! ### Filters of conditions -/

/-- The filter of the conditions; a clause without any is absent. -/
def Filter.of (must should mustNot : List Condition) : Filter :=
  .clauses (clause? must) (clause? should) (clause? mustNot)

section
variable (σ : Assignment) (must should mustNot : List Condition)

theorem clause?_getD : (Filter.clause? must).getD [] = must := by cases must <;> rfl

theorem clauseTruths_clause? (d : List Bool) :
    (clauseTruths σ (Filter.clause? must)).getD d =
      if must = [] then d else must.map (Condition.holds σ) := by
  cases must with
  | nil => rfl
  | cons condition rest => exact truths_eq_map σ _

theorem Filter.holds_of :
    (Filter.of must should mustNot).holds σ =
      (must.all (Condition.holds σ) && (should.isEmpty || should.any (Condition.holds σ))
        && !mustNot.any (Condition.holds σ)) := by
  rw [Filter.of, Filter.holds]
  simp only [clauseTruths_clause?]
  cases must <;> cases should <;> cases mustNot <;> simp

theorem draft_of :
    Draft.ofFilter (Filter.of must should mustNot) =
      ⟨must.map .made, should.map .made, mustNot.map .made⟩ := by
  simp only [Draft.ofFilter, Draft.itemsOf, Filter.of, Filter.must, Filter.should,
    Filter.mustNot, clause?_getD]

theorem draftClause?_map (conditions : List Condition) :
    Draft.clause? (conditions.map .made) = .ok (Filter.clause? conditions) := by
  have hall : (conditions.map Item.made).mapM Item.condition = .ok conditions := by
    induction conditions with
    | nil => rfl
    | cons condition rest ih =>
      rw [List.map_cons, List.mapM_cons, ih]
      rfl
  rw [Draft.clause?, hall]
  rfl

/-- The clauses of a filter make up the filter. -/
theorem filter_draft_of :
    (Draft.ofFilter (Filter.of must should mustNot)).filter =
      .ok (Filter.of must should mustNot) := by
  rw [draft_of, Draft.filter, draftClause?_map, draftClause?_map, draftClause?_map]
  rfl

end

/-! ### Parts -/

/-- The output of a rule or a group is a filter with the truth value, and has at least
one clause. -/
inductive Says (σ : Assignment) : Part → Bool → Prop where
  | intro {must should mustNot : List Condition} :
      (must ≠ [] ∨ should ≠ [] ∨ mustNot ≠ []) →
      Says σ (.ofFilter (.of must should mustNot)) ((Filter.of must should mustNot).holds σ)

section
variable {σ : Assignment} {part : Part} {b : Bool} {parts : List Part} {bs : List Bool}

theorem Says.isEmpty (h : Says σ part b) : part.isEmpty = false := by
  cases h with
  | intro hne =>
    rw [Part.ofFilter, draft_of, Part.isEmpty]
    rcases hne with hne | hne | hne <;> simp [hne]

/-- What a part adds to an `and` group holds where the part does. -/
theorem mergePart_says (h : Says σ part b) :
    ∃ must mustNot : List Condition,
      mergePart part = .ok (must.map .made, mustNot.map .made) ∧
      (must ≠ [] ∨ mustNot ≠ []) ∧
      (must.all (Condition.holds σ) && !mustNot.any (Condition.holds σ)) = b := by
  cases h with
  | @intro must should mustNot hne =>
    rw [Part.ofFilter, mergePart]
    by_cases hshould : should = []
    · subst hshould
      refine ⟨must, mustNot, ?_, by simpa using hne, ?_⟩
      · rw [draft_of]
        rfl
      · rw [Filter.holds_of]
        simp
    · -- a part with a `should` clause stays a filter of its own
      refine ⟨[.nested (.of must should mustNot)], [], ?_, .inl (by simp), ?_⟩
      · rw [Draft.nested, filter_draft_of, draft_of]
        simp [hshould]
      · simp [Condition.holds]

/-- The parts of an `and` group are merged to a conjunction. -/
theorem merge_says (h : List.Forall₂ (Says σ) parts bs) :
    ∃ merged, ∃ must mustNot : List Condition, parts.mapM mergePart = .ok merged ∧
      merged.flatMap (·.1) = must.map .made ∧ merged.flatMap (·.2) = mustNot.map .made ∧
      (parts ≠ [] → must ≠ [] ∨ mustNot ≠ []) ∧
      (must.all (Condition.holds σ) && !mustNot.any (Condition.holds σ)) = bs.all id := by
  induction h with
  | nil => exact ⟨[], [], [], rfl, rfl, rfl, by simp, rfl⟩
  | @cons part b parts bs hpart _ ih =>
    obtain ⟨must, mustNot, hpart, hne, hb⟩ := mergePart_says hpart
    obtain ⟨merged, must', mustNot', hparts, hmust, hmustNot, -, hbs⟩ := ih
    refine ⟨(must.map .made, mustNot.map .made) :: merged, must ++ must',
      mustNot ++ mustNot', ?_, ?_, ?_, ?_, ?_⟩
    · rw [List.mapM_cons, hpart, hparts]
      rfl
    · rw [List.flatMap_cons, hmust, List.map_append]
    · rw [List.flatMap_cons, hmustNot, List.map_append]
    · intro _
      simp only [ne_eq, List.append_eq_nil_iff, not_and_or]
      tauto
    · rw [List.all_cons, ← hb, ← hbs, List.all_append, List.any_append]
      cases must.all (Condition.holds σ) <;> cases mustNot.any (Condition.holds σ) <;> simp

/-- A part is a branch of an `or` group that holds where the part does. -/
theorem branchOf_says (h : Says σ part b) :
    ∃ condition : Condition, branchOf part = .ok (.made condition) ∧
      condition.holds σ = b := by
  cases h with
  | @intro must should mustNot hne =>
    by_cases hsole : ∃ condition, must = [condition] ∧ should = [] ∧ mustNot = []
    · obtain ⟨condition, rfl, rfl, rfl⟩ := hsole
      refine ⟨condition, rfl, ?_⟩
      rw [Filter.holds_of]
      simp
    · refine ⟨.nested (.of must should mustNot), ?_, rfl⟩
      have hnested : branchOf (.ofFilter (.of must should mustNot)) =
          (Draft.ofFilter (.of must should mustNot)).nested := by
        rw [Part.ofFilter, draft_of]
        unfold branchOf
        split
        case h_1 item hdraft =>
          -- only a lone `must` condition is a branch as it is
          simp only [Part.draft.injEq, Draft.mk.injEq, List.map_eq_nil_iff,
            List.map_eq_singleton_iff] at hdraft
          obtain ⟨⟨condition, hmust, -⟩, hshould, hmustNot⟩ := hdraft
          exact absurd ⟨condition, hmust, hshould, hmustNot⟩ hsole
        case h_2 hdraft => rw [Part.draft.inj hdraft]
        case h_3 hgiven => cases hgiven
        case h_4 hgiven => cases hgiven
        case h_5 hgiven => cases hgiven
      rw [hnested, Draft.nested, filter_draft_of]
      rfl

theorem branches_say (h : List.Forall₂ (Says σ) parts bs) :
    ∃ conditions : List Condition, parts.mapM branchOf = .ok (conditions.map .made) ∧
      conditions.map (Condition.holds σ) = bs := by
  induction h with
  | nil => exact ⟨[], rfl, rfl⟩
  | @cons part b parts bs hpart _ ih =>
    obtain ⟨condition, hpart, hb⟩ := branchOf_says hpart
    obtain ⟨conditions, hparts, hbs⟩ := ih
    refine ⟨condition :: conditions, ?_, ?_⟩
    · rw [List.mapM_cons, hpart, hparts]
      rfl
    · rw [List.map_cons, hb, hbs]

end

/-- The truth value of a group with the combinator, from those of its members. -/
def joined (combinator : Value) (negated : Bool) (members : List Bool) : Bool :=
  negated ^^ match combinator with
    | .text name =>
      if Text.lower name = "and" then members.all id
      else Text.lower name == "or" && members.any id
    | _ => false

/-- The clauses of a group say what the group does without its negation. -/
theorem negate_says {σ : Assignment} {must should mustNot : List Condition} {negated : Bool}
    {part : Part} (hne : must ≠ [] ∨ should ≠ [] ∨ mustNot ≠ [])
    (h : (if negated then do
        return .draft { mustNot := [← (Draft.ofFilter (.of must should mustNot)).nested] }
      else return .draft (.ofFilter (.of must should mustNot)) : Result Part) = .ok part) :
    Says σ part (negated ^^ (Filter.of must should mustNot).holds σ) := by
  cases negated with
  | false =>
    cases h
    rw [Bool.false_xor]
    exact .intro hne
  | true =>
    simp only [Draft.nested, filter_draft_of] at h
    cases h
    have hholds : (Filter.of [] [] [.nested (.of must should mustNot)]).holds σ =
        (true ^^ (Filter.of must should mustNot).holds σ) := by
      rw [Filter.holds_of]
      simp [Condition.holds]
    rw [← hholds]
    show Says σ (.ofFilter (.of [] [] [.nested (.of must should mustNot)])) _
    exact .intro (.inr (.inr (List.cons_ne_nil _ _)))

/-- Parts are joined to a part that says what their group does. -/
theorem joinGroup_says {σ : Assignment} {parts : List Part} {bs : List Bool}
    (h : List.Forall₂ (Says σ) parts bs) (hne : parts ≠ []) {combinator : Value}
    {negated : Bool} {part : Part} (hjoin : joinGroup combinator negated parts = .ok part) :
    Says σ part (joined combinator negated bs) := by
  unfold joinGroup at hjoin
  obtain ⟨name, hname, hjoin⟩ := Result.bind_eq_ok hjoin
  cases combinator with
  | text given =>
    cases hname
    by_cases hand : Text.lower name = "and"
    · obtain ⟨merged, must, mustNot, hmerged, hmust, hmustNot, hclauses, hholds⟩ := merge_says h
      have hdraft : Draft.ofFilter (.of must [] mustNot) =
          { must := merged.flatMap (·.1), mustNot := merged.flatMap (·.2) } := by
        rw [draft_of, hmust, hmustNot]
        rfl
      have hmembers : (Filter.of must [] mustNot).holds σ = bs.all id := by
        rw [Filter.holds_of, ← hholds]
        simp
      simp only [hand, beq_self_eq_true, if_true, hmerged, Result.ok_bind, ← hdraft] at hjoin
      rw [joined, if_pos hand, ← hmembers]
      exact negate_says ((hclauses hne).imp_right .inr) hjoin
    · by_cases hor : Text.lower name = "or"
      · obtain ⟨conditions, hbranches, hholds⟩ := branches_say h
        have hdraft : Draft.ofFilter (.of [] conditions []) =
            { should := conditions.map .made } := draft_of [] conditions []
        have hsome : conditions ≠ [] := by
          rintro rfl
          cases hholds
          cases h
          exact hne rfl
        have hmembers : (Filter.of [] conditions []).holds σ = bs.any id := by
          rw [Filter.holds_of, ← hholds, List.any_map]
          simp [hsome]
        simp only [hor, hbranches, Result.ok_bind, ← hdraft] at hjoin
        rw [joined, if_neg hand, hor, ← hmembers]
        exact negate_says (.inr (.inl hsome)) hjoin
      · simp only [beq_eq_false_iff_ne.mpr hand, beq_eq_false_iff_ne.mpr hor] at hjoin
        cases hjoin
  | _ => cases hname

/-! ### Rules -/

/-- A number as a bound. -/
def boundValue : Value → Binary64
  | .float x => x
  | v => .ofInt (v.asInt?.getD 0)

/-- The test of a key that a rule makes or negates; none where a multi-value rule has
no operands.  Matches of the ends of a text are refused, so they make none. -/
def testOf? (policy : NumberPolicy) (operator : Operator) (v : Value) : Option Test :=
  let number (w : Value) := boundValue (w.withNumbers policy)
  match operator with
  | .lt => some (.range [(.lt, number v)])
  | .gt => some (.range [(.gt, number v)])
  | .le => some (.range [(.lte, number v)])
  | .ge => some (.range [(.gte, number v)])
  | .eq | .ne => match v.withNumbers policy with
    | .float x => some (.range [(.gte, x), (.lte, x)])
    | w => some (.value w)
  | .isIn | .notIn => match v.toItems.map (Value.withNumbers policy) with
    | [] => none
    | values => some (.any values)
  | .between | .notBetween =>
    v.suppliedBounds?.map fun b => .range [(.gte, number b.1), (.lte, number b.2)]
  | .null | .notNull => some .isNull
  | .contains | .doesNotContain => some (.text v.display)
  | _ => none

section
variable {policy : NumberPolicy} {r : Rule} {path : Option Path} {v w : Value}

theorem requireNumber_eq_ok (h : requireNumber policy r v = .ok w) : w = v.withNumbers policy := by
  unfold requireNumber at h
  dsimp only at h
  split at h
  · exact (Except.ok.inj h).symm
  · cases h

theorem boundOf_eq_ok {x : Binary64} (h : Test.boundOf v = .ok x) : x = boundValue v := by
  unfold Test.boundOf at h
  split at h
  case h_1 => exact (Except.ok.inj h).symm
  case h_2 hfloat =>
    have hvalue : boundValue v = .ofInt (v.asInt?.getD 0) := by
      cases v with
      | float y => exact (hfloat y rfl).elim
      | _ => rfl
    rw [hvalue]
    split at h
    case h_1 n hn =>
      rw [hn]
      split at h
      case h_1 => cases h
      case h_2 => exact (Except.ok.inj h).symm
    case h_2 => cases h

theorem mapM_boundOf {bounds : List (BoundKind × Value)} {numbers : List (BoundKind × Binary64)}
    (h : (bounds.mapM fun b => return (b.1, ← Test.boundOf b.2) : Result _) = .ok numbers) :
    numbers = bounds.map fun b => (b.1, boundValue b.2) := by
  induction bounds generalizing numbers with
  | nil => exact (Except.ok.inj h).symm
  | cons b bounds ih =>
    rw [List.mapM_cons] at h
    obtain ⟨first, hfirst, h⟩ := Result.bind_eq_ok h
    obtain ⟨rest, hrest, h⟩ := Result.bind_eq_ok h
    obtain ⟨x, hx, hfirst⟩ := Result.bind_eq_ok hfirst
    cases h
    cases hfirst
    rw [List.map_cons, ← boundOf_eq_ok hx, ← ih hrest]

theorem ofBounds_eq_ok {bounds : List (BoundKind × Value)} {t : Test}
    (h : Test.ofBounds bounds = .ok t) :
    t = .range (bounds.map fun b => (b.1, boundValue b.2)) := by
  obtain ⟨numbers, hnumbers, h⟩ := Result.bind_eq_ok h
  cases h
  rw [mapM_boundOf hnumbers]

theorem ofValue_eq_ok {t : Test} (h : Test.ofValue v = .ok t) : t = .value v := by
  cases v with
  | bool | int | text => exact (Except.ok.inj h).symm
  | _ => cases h

theorem ofValues_eq_ok {vs : List Value} {t : Test} (h : Test.ofValues vs = .ok t) :
    t = .any vs := by
  unfold Test.ofValues at h
  dsimp only at h
  split at h
  · exact (Except.ok.inj h).symm
  · cases h

theorem equalityTest_eq_ok {t : Test} (h : equalityTest (v.withNumbers policy) = .ok t) :
    some t = testOf? policy .eq v := by
  rw [testOf?]
  cases hnumber : v.withNumbers policy with
  | float x =>
    rw [hnumber] at h
    rw [ofBounds_eq_ok h]
    rfl
  | _ =>
    rw [hnumber] at h
    simp only [equalityTest, isFloat, Bool.false_eq_true, if_false] at h
    rw [ofValue_eq_ok h]

section
variable {t : Option Test}

theorem comparison_eq_ok {kind : BoundKind}
    (h : (do
      let number ← requireNumber policy r v
      return some (← Test.ofBounds [(kind, number)]) : Result (Option Test)) = .ok t) :
    t = some (.range [(kind, boundValue (v.withNumbers policy))]) := by
  obtain ⟨w, hw, h⟩ := Result.bind_eq_ok h
  obtain ⟨test, htest, h⟩ := Result.bind_eq_ok h
  cases h
  rw [ofBounds_eq_ok htest, requireNumber_eq_ok hw]
  rfl

theorem membership_eq_ok
    (h : (match memberValues policy false v with
      | [] => return none
      | values => do
        if values.any isFloat then throw (Error.unsupportedValue (.floatMembership r.field))
        return some (← Test.ofValues values) : Result (Option Test)) = .ok t) :
    t = testOf? policy .isIn v := by
  have hvalues : memberValues policy false v = v.toItems.map (Value.withNumbers policy) := by
    cases v <;> rfl
  rw [hvalues] at h
  rw [testOf?]
  cases hitems : v.toItems.map (Value.withNumbers policy) with
  | nil =>
    rw [hitems] at h
    exact (Except.ok.inj h).symm
  | cons first rest =>
    rw [hitems] at h
    cases hfloat : (first :: rest).any isFloat with
    | true =>
      simp only [hfloat] at h
      cases h
    | false =>
      simp only [hfloat] at h
      obtain ⟨test, htest, h⟩ := Result.bind_eq_ok h
      cases h
      rw [ofValues_eq_ok htest]

theorem range_eq_ok
    (h : (match v.suppliedBounds? with
      | none => return none
      | some (low, high) => do
        let low ← requireNumber policy r low
        let high ← requireNumber policy r high
        return some (← Test.ofBounds [(.gte, low), (.lte, high)]) : Result (Option Test)) = .ok t) :
    t = testOf? policy .between v := by
  rw [testOf?]
  cases hbounds : v.suppliedBounds? with
  | none =>
    rw [hbounds] at h
    exact (Except.ok.inj h).symm
  | some bounds =>
    rw [hbounds] at h
    obtain ⟨low, hlow, h⟩ := Result.bind_eq_ok h
    obtain ⟨high, hhigh, h⟩ := Result.bind_eq_ok h
    obtain ⟨test, htest, h⟩ := Result.bind_eq_ok h
    cases h
    rw [ofBounds_eq_ok htest, requireNumber_eq_ok hlow, requireNumber_eq_ok hhigh]
    rfl

/-- A rule that is written makes its test. -/
theorem ruleTest_eq_ok {operator : Operator} (h : ruleTest policy operator r false v path = .ok t) :
    t = testOf? policy operator v := by
  unfold ruleTest at h
  cases operator with
  | lt | gt | le | ge => exact comparison_eq_ok h
  | eq | ne =>
    obtain ⟨test, htest, h⟩ := Result.bind_eq_ok h
    cases h
    exact equalityTest_eq_ok htest
  | isIn | notIn => exact membership_eq_ok h
  | between | notBetween => exact range_eq_ok h
  | null | notNull | contains | doesNotContain => exact (Except.ok.inj h).symm
  | _ => cases h

end

end

/-- What a rule says of a payload; none where a multi-value rule has no operands. -/
def Assignment.rule? (σ : Assignment) (plan : FormatPlan) (r : Rule) : Option Bool := do
  let operator ← r.operator?
  let t ← testOf? (plan.policyOf r) operator r.value
  match r.field with
  | .text key => some (σ.holds operator key t)
  | _ => none

theorem Assignment.rule?_eq {σ : Assignment} {plan : FormatPlan} {r : Rule} {operator : Operator}
    (h : r.operator? = some operator) :
    σ.rule? plan r = (testOf? (plan.policyOf r) operator r.value).bind fun t =>
      match r.field with
      | .text key => some (σ.holds operator key t)
      | _ => none := by
  rw [Assignment.rule?, h]
  rfl

/-- The filter of a single condition says what the operator says of the key. -/
theorem says_condition (σ : Assignment) (operator : Operator) (key : String) (t : Test) :
    Says σ (.ofFilter (if isNegative operator then .clauses none none (some [.test key t])
      else .clauses (some [.test key t]) none none)) (σ.holds operator key t) := by
  have hpositive : Says σ (.ofFilter (.of [.test key t] [] [])) (σ.test key t) := by
    have hholds : (Filter.of [.test key t] [] []).holds σ = σ.test key t := by
      rw [Filter.holds_of]
      simp [Condition.holds]
    rw [← hholds]
    exact .intro (.inl (List.cons_ne_nil _ _))
  have hnegative : Says σ (.ofFilter (.of [] [] [.test key t])) (!σ.test key t) := by
    have hholds : (Filter.of [] [] [.test key t]).holds σ = !σ.test key t := by
      rw [Filter.holds_of]
      simp [Condition.holds]
    rw [← hholds]
    exact .intro (.inr (.inr (List.cons_ne_nil _ _)))
  cases operator with
  | ne | notIn | notBetween | notNull | doesNotContain => exact hnegative
  | _ => exact hpositive

section
variable {plan plan' : FormatPlan} {r : Rule} {context : Option RuleContext} {f : Filter}

/-- A rule is written as a filter that says what the rule says. -/
theorem writeRule_says (σ : Assignment) (hvalue : plan'.valueHook = .absent)
    (hpolicy : plan'.style.policy = plan.policyOf r)
    (h : writeRule {} plan' r context = .ok f) :
    (f = .of [] [] [] ∧ σ.rule? plan r = none) ∨
      ∃ b, σ.rule? plan r = some b ∧ Says σ (.ofFilter f) b := by
  unfold writeRule at h
  obtain ⟨key, hkey, h⟩ := Result.bind_eq_ok h
  obtain rfl : r.field = key := Except.ok.inj hkey
  cases hfields : r.comparesFields with
  | true =>
    rw [hfields] at h
    cases h
  | false =>
    cases hoperator : r.operator? with
    | none =>
      rw [hfields, hoperator] at h
      cases h
    | some operator =>
      have hsupplied : plan'.suppliedValue r operator = .ok none := by
        rw [FormatPlan.suppliedValue, hvalue]
        split <;> rfl
      simp only [hfields, hoperator] at h
      obtain ⟨supplied, hsome, h⟩ := Result.bind_eq_ok h
      obtain rfl : none = supplied := Except.ok.inj (hsupplied.symm.trans hsome)
      obtain ⟨test, htest, h⟩ := Result.bind_eq_ok h
      have hmade : test = testOf? (plan.policyOf r) operator r.value := by
        rw [← hpolicy]
        exact ruleTest_eq_ok htest
      cases test with
      | none =>
        refine .inl ⟨(Except.ok.inj h).symm, ?_⟩
        rw [Assignment.rule?_eq hoperator, ← hmade]
        rfl
      | some t =>
        obtain ⟨condition, hcondition, h⟩ := Result.bind_eq_ok h
        cases hkey : r.field with
        | text key =>
          rw [hkey] at hcondition
          obtain rfl : Condition.test key t = condition := Except.ok.inj hcondition
          refine .inr ⟨σ.holds operator key t, ?_, ?_⟩
          · rw [Assignment.rule?_eq hoperator, ← hmade, hkey]
            rfl
          · obtain rfl := Except.ok.inj h
            exact says_condition σ operator key t
        | _ =>
          rw [hkey] at hcondition
          cases hcondition

/-- The writer of filters speaks for what the rules of a tree say. -/
theorem speaks (σ : Assignment) (hrule : plan.ruleHook = .absent)
    (hvalue : plan.valueHook = .absent) :
    (writer {}).Speaks plan (Says σ) (σ.rule? plan) joined where
  rule {r path s s' out} h := by
    rw [Writer.writeRule_apply _ hrule] at h
    obtain ⟨field, hfield, h⟩ := Result.bind_eq_ok h
    split at h
    · obtain ⟨plan', hplan, h⟩ := Result.bind_eq_ok h
      have hpolicy := FormatPlan.policy_of_forField hfield hplan
      obtain ⟨policy, hpolicy'⟩ := FormatPlan.eq_of_forField hplan
      have hvalue' : plan'.valueHook = .absent := by rw [hpolicy', hvalue]
      obtain ⟨f, s₁, hwrite, h⟩ := Writer.bind_apply_eq_ok h
      cases h
      rcases writeRule_says σ hvalue' hpolicy (Writer.lift_apply_eq_ok hwrite).1 with
        ⟨rfl, hnone⟩ | ⟨b, hsome, hpart⟩
      · exact .inl ⟨rfl, hnone⟩
      · exact .inr ⟨hpart.isEmpty, b, hsome, hpart⟩
    · cases h
  join hsays hne h := by
    have hpart := joinGroup_says hsays hne h
    exact ⟨hpart.isEmpty, hpart⟩

end

/-- A single rule says what the group with it says. -/
theorem said_asGroup (rule : Rule → Option Bool) (t : Node) :
    t.asGroup.said rule joined = t.said rule joined := by
  cases t with
  | rule r =>
    rw [Node.asGroup, Node.ofChildren, Node.said_group, List.filterMap_cons, List.filterMap_nil]
    cases Node.said rule joined (.rule r) with
    | none => rfl
    | some b =>
      have hand : joined (.text "and") false [b] = b := by
        have hlower : Text.lower "and" = "and" := by decide
        rw [joined, if_pos hlower]
        simp
      exact congrArg some hand
  | _ => rfl

end Qdrant

namespace Query
open Qdrant

/-- **Search filters.**  A standard query is written as a filter that says what the
query says; where the query says nothing, the fallback stands in for a filter. -/
theorem format_filter {o : FormatOptions} {plan : FormatPlan} {query t : Node} {output : Output}
    (hresolve : o.resolve = .ok plan) (hformat : plan.style.format = .dialect .qdrant)
    (hrule : plan.ruleHook = .absent) (hvalue : plan.valueHook = .absent)
    (hvalidate : plan.validate = false) (hinput : ofInput query = .ok t) (ht : t.IsStandard)
    (h : format o query = .ok output) (σ : Assignment) :
    (t.said (σ.rule? plan) joined = none ∧ output = .value plan.fallback) ∨
      ∃ f, output = .filter f ∧ t.said (σ.rule? plan) joined = some (f.holds σ) := by
  rw [format, hresolve, Result.ok_bind, hinput, Result.ok_bind] at h
  simp only [hformat] at h
  obtain ⟨f?, hfilter, rfl⟩ := Result.map_eq_ok h
  obtain ⟨⟨part, bindings⟩, hrun, hfilter⟩ := Result.bind_eq_ok hfilter
  have hsays := (speaks σ hrule hvalue).run ht hvalidate hrun
  rw [said_asGroup] at hsays
  generalize t.said (σ.rule? plan) joined = b at hsays
  cases hsays with
  | none =>
    cases hfilter
    exact .inl ⟨rfl, rfl⟩
  | some hpart =>
    cases hpart with
    | @intro must should mustNot hne =>
      simp only [Part.ofFilter, filter_draft_of] at hfilter
      cases hfilter
      exact .inr ⟨_, rfl, rfl⟩

/-- The negation of a rule beside a negated group, a rule without operands and one that
is disabled. -/
def filterSpecimen : Node :=
  .group (.text "or") {}
    [.rule (.of "a" .ne (.int 1)),
      .group (.text "AND") { negated := true }
        [.rule (.of "b" .contains (.text "x")),
          .rule { Rule.of "b" .beginsWith (.text "x") with disabled := true }],
      .rule (.of "c" .isIn (.list []))]

theorem format_filter_specimen :
    ∃ f, format { format := .text "qdrant" } filterSpecimen = .ok (.filter f) ∧
      ∀ σ : Assignment, f.holds σ =
        (!σ.test "a" (.value (.int 1)) || !σ.test "b" (.text "x")) := by
  have hformat : format { format := .text "qdrant" } filterSpecimen = .ok (.filter (.of []
      [.nested (.of [] [] [.test "a" (.value (.int 1))]),
        .nested (.of [] [] [.nested (.of [.test "b" (.text "x")] [] [])])] [])) := by
    rfl
  have hresolve : ({ format := .text "qdrant" } : FormatOptions).resolve =
      .ok { style := { format := .dialect .qdrant } } := rfl
  have hstandard : filterSpecimen.IsStandard := by
    refine .group ?_
    simp only [List.forall_mem_cons]
    refine ⟨.rule _, .group ?_, .rule _, by simp⟩
    simp only [List.forall_mem_cons]
    exact ⟨.rule _, .rule _, by simp⟩
  refine ⟨_, hformat, fun σ => ?_⟩
  rcases format_filter hresolve rfl rfl rfl rfl rfl hstandard hformat σ with
    ⟨hnone, -⟩ | ⟨f, hf, hsaid⟩
  · cases hnone
  · cases hf
    have hand : Text.lower "AND" = "and" := by decide
    have hor : Text.lower "or" = "or" := by decide
    have hmeaning :
        filterSpecimen.said (σ.rule? { style := { format := .dialect .qdrant } }) joined = some (joined
          (.text "or") false [!σ.test "a" (.value (.int 1)),
            joined (.text "AND") true [σ.test "b" (.text "x")]]) := rfl
    rw [Option.some.inj (hsaid.symm.trans hmeaning)]
    simp [joined, hand, hor]

end Query
end RuleTree
