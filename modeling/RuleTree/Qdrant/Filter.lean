import RuleTree.Error

/-! # Search filters

A filter of Qdrant: conditions that must all hold, conditions of which one
should hold, and conditions of which none may hold.  A condition tests one
payload key or is a filter itself.  A clause that is absent is not written.
-/
namespace RuleTree
namespace Qdrant

/-- The side and the strictness of a bound. -/
inductive BoundKind where
  | lt
  | gt
  | lte
  | gte
  deriving DecidableEq

/-- The key of a bound. -/
def BoundKind.name : BoundKind → String
  | .lt => "lt"
  | .gt => "gt"
  | .lte => "lte"
  | .gte => "gte"

/-- A test of one payload key. -/
inductive Test where
  /-- The key has the value. -/
  | value (v : Value)
  /-- The key has one of the values. -/
  | any (vs : List Value)
  /-- The key contains the text. -/
  | text (s : String)
  /-- The key lies within the bounds. -/
  | range (bounds : List (BoundKind × Binary64))
  /-- The key is null. -/
  | isNull

mutual
/-- A test of a key, or a filter. -/
inductive Condition where
  | test (key : String) (t : Test)
  | nested (f : Filter)
  /-- A condition as a caller wrote it, in normal form. -/
  | given (v : Value)

/-- Conditions in three clauses. -/
inductive Filter where
  | clauses (must should mustNot : Option (List Condition))
end

namespace Test

/-- The map of a test of a key. -/
def toValue (key : String) : Test → Value
  | .value v => .map [("key", .text key), ("match", .map [("value", v)])]
  | .any vs => .map [("key", .text key), ("match", .map [("any", .list vs)])]
  | .text s => .map [("key", .text key), ("match", .map [("text", .text s)])]
  | .range bounds =>
    .map [("key", .text key), ("range", .map (bounds.map fun b => (b.1.name, .float b.2)))]
  | .isNull => .map [("is_null", .map [("key", .text key)])]

/-- A test for a value: a truth value, an integer or a text. -/
def ofValue : Value → Result Test
  | .bool b => .ok (.value (.bool b))
  | .int n => .ok (.value (.int n))
  | .text s => .ok (.value (.text s))
  | _ => Misuse.rejected.fail

/-- A test for one of several values: all integers or all texts. -/
def ofValues (vs : List Value) : Result Test :=
  let isInt : Value → Bool
    | .int _ => true
    | _ => false
  let isText : Value → Bool
    | .text _ => true
    | _ => false
  if vs.all isInt || vs.all isText then .ok (.any vs) else Misuse.rejected.fail

/-- A number as a bound, which is a floating point number. -/
def boundOf : Value → Result Binary64
  | .float x => .ok x
  | v => match v.asInt? with
    | some n => match Binary64.ofInt n with
      | .infinite _ => Misuse.rejected.fail
      | x => .ok x
    | none => Misuse.rejected.fail

/-- A test of a range, given by the kind and the number of each bound. -/
def ofBounds (bounds : List (BoundKind × Value)) : Result Test := do
  return .range (← bounds.mapM fun b => return (b.1, ← boundOf b.2))

end Test

namespace Condition

/-- The condition of a test on a key, which must be a text. -/
def ofTest (key : Value) (t : Test) : Result Condition :=
  match key with
  | .text s => .ok (.test s t)
  | _ => Misuse.rejected.fail

end Condition

namespace Filter

/-- The filter without clauses. -/
def empty : Filter := .clauses none none none

/-- The conditions that must hold. -/
def must : Filter → Option (List Condition)
  | .clauses must _ _ => must

/-- The conditions of which one should hold. -/
def should : Filter → Option (List Condition)
  | .clauses _ should _ => should

/-- The conditions of which none may hold. -/
def mustNot : Filter → Option (List Condition)
  | .clauses _ _ mustNot => mustNot

/-- Whether no clause is present. -/
def isEmpty (f : Filter) : Bool := f.must.isNone && f.should.isNone && f.mustNot.isNone

/-- A clause that is present only if it has conditions. -/
def clause? : List Condition → Option (List Condition)
  | [] => none
  | conditions => some conditions

mutual
/-- The map of a filter. -/
def toValue : Filter → Value
  | .clauses must should mustNot =>
    .map (clauseEntry "must" must ++ clauseEntry "should" should
      ++ clauseEntry "must_not" mustNot)

/-- The entry of a clause, if it is present. -/
def clauseEntry (key : String) : Option (List Condition) → List (String × Value)
  | none => []
  | some conditions => [(key, .list (conditionValues conditions))]

/-- The maps of conditions. -/
def conditionValues : List Condition → List Value
  | [] => []
  | .test key t :: rest => t.toValue key :: conditionValues rest
  | .nested f :: rest => toValue f :: conditionValues rest
  | .given v :: rest => v :: conditionValues rest
end

end Filter

/-! ### Text -/

/-- A record in a message: its name, and its attributes with their values. -/
def recordText (name : String) (attributes : List (String × String)) : String :=
  name ++ "(" ++ Text.joinWith ", " (attributes.map fun a => a.1 ++ "=" ++ a.2) ++ ")"

/-- A text in a message. -/
def quotedText (s : String) : String := (Value.text s).inspect

namespace Test

/-- The attributes of a condition on a key besides the key and the tests of its
value, none of which is set. -/
def unsetAttributes : List (String × String) :=
  ["geo_bounding_box", "geo_radius", "geo_polygon", "values_count", "is_empty", "is_null"].map
    fun name => (name, "None")

/-- A condition on a key in a message, by the text of its two kinds of test. -/
def fieldText (key matching range : String) : String :=
  recordText "FieldCondition"
    ([("key", quotedText key), ("match", matching), ("range", range)] ++ unsetAttributes)

/-- The bound of a kind in a message. -/
def boundText (bounds : List (BoundKind × Binary64)) (kind : BoundKind) : String × String :=
  (kind.name, match bounds.find? fun b => b.1 = kind with
    | some b => b.2.text
    | none => "None")

/-- A test of a key in a message. -/
def inspect (key : String) : Test → String
  | .value v => fieldText key (recordText "MatchValue" [("value", v.inspect)]) "None"
  | .any vs => fieldText key (recordText "MatchAny" [("any", (Value.list vs).inspect)]) "None"
  | .text s => fieldText key (recordText "MatchText" [("text", quotedText s)]) "None"
  | .range bounds =>
    fieldText key "None" (recordText "Range" ([.lt, .gt, .gte, .lte].map (boundText bounds)))
  | .isNull =>
    recordText "IsNullCondition" [("is_null", recordText "PayloadField" [("key", quotedText key)])]

end Test

namespace Filter

mutual
/-- A filter in a message. -/
def inspect : Filter → String
  | .clauses must should mustNot =>
    recordText "Filter" [("should", inspectClause should), ("min_should", "None"),
      ("must", inspectClause must), ("must_not", inspectClause mustNot)]

/-- A clause in a message. -/
def inspectClause : Option (List Condition) → String
  | none => "None"
  | some conditions => "[" ++ Text.joinWith ", " (inspectConditions conditions) ++ "]"

/-- Conditions in a message. -/
def inspectConditions : List Condition → List String
  | [] => []
  | .test key t :: rest => t.inspect key :: inspectConditions rest
  | .nested f :: rest => inspect f :: inspectConditions rest
  | .given v :: rest => v.inspect :: inspectConditions rest
end

end Filter
end Qdrant
end RuleTree

