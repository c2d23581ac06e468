import RuleTree.Qdrant.Given
import RuleTree.Writing

/-! # Writing search filters

A rule becomes a test under `must`, or under `must_not` where its operator is
negative.  The parts of an `and` group are merged, unless a part has a `should`
clause; every part of an `or` group is one member of `should`; a negated group
is a nested filter under `must_not`.
-/
namespace RuleTree
namespace Qdrant

/-- Where the fields of rules lie in a payload. -/
structure Payload where
  /-- The key under which the fields are nested; a false value is none. -/
  container : Value := .null
  /-- The fields that are not. -/
  rootFields : List Value := []

/-- The payload with the fields that a caller names as nested nowhere. -/
def Payload.ofInput (container rootFields : Value) : Result Payload := do
  let names ← if rootFields.truthy then rootFields.elements else pure []
  names.forM Value.requireKey
  return ⟨container, names⟩

/-- The key of a field. -/
def Payload.key (p : Payload) (field : Value) : Result Value := do
  if !p.container.truthy then return field
  field.requireKey
  if p.rootFields.any fun name => name.equals field then return field
  return .text (p.container.display ++ "." ++ field.display)

/-- A condition, or what a caller wrote for one. -/
inductive Item where
  | made (c : Condition)
  | given (v : Value)

/-- The condition of an item.  Fails where what a caller wrote is none. -/
def Item.condition : Item → Result Condition
  | .made c => .ok c
  | .given v => (Given.condition v).map .given

/-- The clauses of a filter before their items are looked at; an empty clause is
absent. -/
structure Draft where
  must : List Item := []
  should : List Item := []
  mustNot : List Item := []

namespace Draft

/-- The items of a clause of a filter. -/
def itemsOf (clause : Option (List Condition)) : List Item := (clause.getD []).map .made

/-- The clauses of a filter. -/
def ofFilter (f : Filter) : Draft := ⟨itemsOf f.must, itemsOf f.should, itemsOf f.mustNot⟩

/-- A clause that is present only if it has items. -/
def clause? (items : List Item) : Result (Option (List Condition)) := do
  return Filter.clause? (← items.mapM Item.condition)

/-- The filter with the clauses. -/
def filter (d : Draft) : Result Filter := do
  return .clauses (← clause? d.must) (← clause? d.should) (← clause? d.mustNot)

/-- The clauses as one item. -/
def nested (d : Draft) : Result Item := do return .made (.nested (← d.filter))

end Draft

/-- The output of a rule or a group: clauses, or what a caller wrote. -/
inductive Part where
  | draft (d : Draft)
  | given (v : Value)

/-- A filter as an output. -/
def Part.ofFilter (f : Filter) : Part := .draft (.ofFilter f)

/-- Whether nothing is written. -/
def Part.isEmpty : Part → Bool
  | .draft d => d.must.isEmpty && d.should.isEmpty && d.mustNot.isEmpty
  | .given v => v.isNothing

/-- The operators that hold where their test does not. -/
def isNegative : Operator → Bool
  | .ne | .notIn | .notBetween | .notNull | .doesNotContain => true
  | _ => false

/-- The kind of bound that a comparison sets. -/
def boundOf? : Operator → Option BoundKind
  | .lt => some .lt
  | .gt => some .gt
  | .le => some .lte
  | .ge => some .gte
  | _ => none

/-- The number that a bound must be. -/
def requireNumber (policy : NumberPolicy) (r : Rule) (v : Value) : Result Value :=
  let number := v.withNumbers policy
  if number.isNumber then .ok number
  else .error (.unsupportedValue (.boundNotANumber v r.field))

/-- The values of a membership test; a list that the caller supplied is taken as
it is. -/
def memberValues (policy : NumberPolicy) (supplied : Bool) (v : Value) : List Value :=
  match supplied, v with
  | true, .list items => items
  | _, v => v.toItems.map (Value.withNumbers policy)

/-- A floating point number. -/
def isFloat : Value → Bool
  | .float _ => true
  | _ => false

/-- The test for equality with a value; one for a floating point number is a
range. -/
def equalityTest (v : Value) : Result Test :=
  if isFloat v then Test.ofBounds [(.gte, v), (.lte, v)] else Test.ofValue v

/-- The test that a rule makes, or the negation of which it makes; none where a
multi-value rule has no operands. -/
def ruleTest (policy : NumberPolicy) (operator : Operator) (r : Rule) (supplied : Bool)
    (v : Value) (path : Option Path) : Result (Option Test) := do
  match boundOf? operator with
  | some kind => return some (← Test.ofBounds [(kind, ← requireNumber policy r v)])
  | none =>
    if operator = .eq || operator = .ne then
      return some (← equalityTest (if supplied then v else v.withNumbers policy))
    else if operator.isMembership then
      match memberValues policy supplied v with
      | [] => return none
      | values =>
        if values.any isFloat then throw (.unsupportedValue (.floatMembership r.field))
        return some (← Test.ofValues values)
    else if operator.isRange then
      match v.suppliedBounds? with
      | none => return none
      | some (low, high) =>
        let low ← requireNumber policy r low
        let high ← requireNumber policy r high
        return some (← Test.ofBounds [(.gte, low), (.lte, high)])
    else if operator.isNullCheck then return some .isNull
    else if operator = .contains || operator = .doesNotContain then
      return some (.text v.display)
    else throw (.unsupportedOperator r.operator (.text "qdrant") path)

/-- One rule as a filter. -/
def writeRule (p : Payload) (plan : FormatPlan) (r : Rule) (context : Option RuleContext) :
    Result Filter := do
  let key ← p.key r.field
  if r.comparesFields then throw (.unsupportedValue (.fieldAgainstField r.field))
  match r.operator? with
  | none => Misuse.missingOperation.fail
  | some operator =>
    let supplied ← plan.suppliedValue r operator
    let test ← ruleTest plan.style.policy operator r supplied.isSome (supplied.getD r.value)
      (context.map (·.path))
    match test with
    | none => return .empty
    | some t =>
      let condition ← Condition.ofTest key t
      return if isNegative operator then .clauses none none (some [condition])
        else .clauses (some [condition]) none none

/-- What the key of a field converts. -/
def Payload.keyConversions (p : Payload) (field : Value) : List Conversion :=
  if !p.container.truthy || p.rootFields.any (fun name => name.equals field) then []
  else [.write p.container, .write field]

/-- What `ruleTest` converts.  The upper bound of a range is looked at once the lower
one is known to be a number. -/
def testConversions (policy : NumberPolicy) (operator : Operator) (supplied : Bool) (v : Value) :
    List Conversion :=
  if (boundOf? operator).isSome then [.read policy v]
  else if operator = .eq || operator = .ne then if supplied then [] else [.read policy v]
  else if operator.isMembership then
    match supplied, v with
    | true, .list _ => []
    | _, v => v.toItems.map (.read policy)
  else if operator.isRange then
    match v.suppliedBounds? with
    | none => []
    | some (low, high) =>
      if (low.withNumbers policy).isNumber then [.read policy low, .read policy high]
      else [.read policy low]
  else if operator = .contains || operator = .doesNotContain then [.write v]
  else []

/-- What `writeRule` converts. -/
def conversions (p : Payload) (plan : FormatPlan) (r : Rule) : List Conversion :=
  match p.key r.field, r.operator? with
  | .ok _, some operator =>
    p.keyConversions r.field ++
      if r.comparesFields then []
      else
        match plan.suppliedValue r operator with
        | .ok supplied =>
          testConversions plan.style.policy operator supplied.isSome (supplied.getD r.value)
        | .error _ => []
  | _, _ => []

/-- The items of a clause that a caller wrote. -/
def givenItems (entries : List (String × Value)) (key : String) : Result (List Item) := do
  return (← (Value.firstOf entries [key] (.list [])).elements).map .given

/-- The items that a part adds to the `must` and the `must_not` clause of an
`and` group. -/
def mergePart : Part → Result (List Item × List Item)
  | .draft d => do
    if d.should.isEmpty then return (d.must, d.mustNot)
    return ([← d.nested], [])
  | .given (.map entries) => do
    if Value.hasKey "should" entries then return ([.made (← Given.filter entries)], [])
    return (← givenItems entries "must", ← givenItems entries "must_not")
  | .given (.list vs) =>
    if vs.any fun v => v.equals (.text "should") then Misuse.wrongKind.fail
    else Misuse.missingOperation.fail
  | .given (.text s) =>
    if Text.replace s "should" "" != s then Misuse.wrongKind.fail
    else Misuse.missingOperation.fail
  | .given _ => Misuse.wrongKind.fail

/-- The member of the `should` clause of an `or` group that a `must` clause is
which a caller wrote alone: its only item, or a nested filter. -/
def soleClause : Value → Result Item
  | .list [v] => .ok (.given v)
  | .text s =>
    if s.length = 1 then .ok (.given (.text s))
    else (Given.filter [("must", .text s)]).map .made
  | .map [_] => Misuse.unknownName.fail
  | .list vs => (Given.filter [("must", .list vs)]).map .made
  | .map entries => (Given.filter [("must", .map entries)]).map .made
  | _ => Misuse.wrongKind.fail

/-- The member of the `should` clause of an `or` group that a part is: the only
item of its `must` clause, or a nested filter. -/
def branchOf : Part → Result Item
  | .draft ⟨[item], [], []⟩ => .ok item
  | .draft d => d.nested
  | .given (.map [("must", v)]) => soleClause v
  | .given (.map entries) => (Given.filter entries).map .made
  | .given _ => Misuse.wrongKind.fail

/-- The clauses of a group from its parts. -/
def joinGroup (combinator : Value) (negated : Bool) (parts : List Part) : Result Part := do
  let name := Text.lower (← combinator.requireText)
  let joined : Draft ←
    if name == "and" then do
      let merged ← parts.mapM mergePart
      pure { must := merged.flatMap (·.1), mustNot := merged.flatMap (·.2) }
    else if name == "or" then do
      pure { should := ← parts.mapM branchOf }
    else throw (.unsupportedOperator combinator (.text "qdrant") none)
  if negated then return .draft { mustNot := [← joined.nested] }
  return .draft joined

/-- The writer of filters.  A rule that the caller's function leaves to the
library is not nested in the payload. -/
def writer (p : Payload) : Writer Part where
  dialect := .qdrant
  isEmpty := Part.isEmpty
  write plan r context := do return .ofFilter (← writeRule p plan r context)
  leave plan r context := do return .ofFilter (← writeRule {} plan r context)
  adopt v := return .given v
  combine combinator negated _ parts := joinGroup combinator negated parts

/-- A tree as a filter, by a writer; none for an empty query. -/
def filterBy (w : Writer Part) (plan : FormatPlan) (query : Node) : Result (Option Filter) := do
  let (output, _) ← w.run plan query
  match output with
  | some (.draft d) => return some (← d.filter)
  | _ => return none

/-- A tree as a filter; none for an empty query. -/
def filter? (p : Payload) (plan : FormatPlan) (query : Node) (limit : DigitLimit := none) :
    Result (Option Filter) :=
  filterBy ((writer p).within limit (conversions p)) plan query

end Qdrant
end RuleTree
