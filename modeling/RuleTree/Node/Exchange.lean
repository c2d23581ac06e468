import RuleTree.Node

/-! # Trees as maps

The shape in which trees are exchanged: a rule is a map with `field`,
`operator` and `value`, a standard group one with `combinator` and `rules`, and
an interleaved group one with `rules` alone, among them the combinators as
texts.  Flags and ids are written only where they are set.  `toValue` writes a
tree and `ofValue` reads one.
-/
namespace RuleTree
namespace Node

/-! ### Writing -/

/-- The entry of an id, if ids are kept and there is one. -/
def idEntry (includeIds : Bool) : Value → List (String × Value)
  | .null => []
  | id => if includeIds then [("id", id)] else []

/-- An entry that is written only where it is true. -/
def flagEntry (key : String) (set : Bool) : List (String × Value) :=
  if set then [(key, .bool true)] else []

/-- The map of a rule. -/
def ruleEntries (includeIds : Bool) (r : Rule) : List (String × Value) :=
  idEntry includeIds r.id
    ++ [("field", r.field), ("operator", r.operator), ("value", r.value)]
    ++ (if r.comparesFields then [("valueSource", .text "field")] else [])
    ++ flagEntry "disabled" r.disabled

/-- The entries of a group before its rules. -/
def groupEntries (includeIds : Bool) (combinator : List (String × Value)) (flags : GroupFlags) :
    List (String × Value) :=
  idEntry includeIds flags.id ++ combinator ++ flagEntry "not" flags.negated
    ++ flagEntry "disabled" flags.disabled

mutual
/-- The map of a tree.  A bare node has none. -/
def toValue (includeIds : Bool) : Node → Result Value
  | .rule r => .ok (.map (ruleEntries includeIds r))
  | .group combinator flags children => do
    let rules ← childValues includeIds children
    return .map (groupEntries includeIds [("combinator", combinator)] flags
      ++ [("rules", .list rules)])
  | .interleaved flags items => do
    let rules ← itemValues includeIds items
    return .map (groupEntries includeIds [] flags ++ [("rules", .list rules)])
  | .bare _ => Misuse.missingOperation.fail

/-- The maps of the children of a standard group. -/
def childValues (includeIds : Bool) : List Node → Result (List Value)
  | [] => .ok []
  | node :: rest => do
    let v ← toValue includeIds node
    return v :: (← childValues includeIds rest)

/-- The maps and texts of the items of an interleaved group. -/
def itemValues (includeIds : Bool) : List Node → Result (List Value)
  | [] => .ok []
  | .bare (.text s) :: rest => do
    return .text s :: (← itemValues includeIds rest)
  | node :: rest => do
    let v ← toValue includeIds node
    return v :: (← itemValues includeIds rest)
end

/-! ### Reading -/

/-- The rule of a map without `rules`. -/
def ruleOfEntries (entries : List (String × Value)) : Result Node :=
  match Value.lookup "field" entries, Value.lookup "operator" entries with
  | some field, some operator =>
    let source := Value.firstOf entries ["valueSource", "value_source"] (.text "value")
    .ok (.rule
      { field := field
        operator := operator
        value := Value.firstOf entries ["value"] (.text "")
        source := if source.truthy then .ofValue source else .value
        disabled := (Value.firstOf entries ["disabled"] (.bool false)).truthy
        id := Value.firstOf entries ["id"] .null })
  | _, _ => .error (.invalidTree (.incompleteRule (.map entries)))

/-- The flags of the map of a group. -/
def flagsOfEntries (entries : List (String × Value)) : GroupFlags :=
  { negated := (Value.firstOf entries ["not", "negated"] (.bool false)).truthy
    disabled := (Value.firstOf entries ["disabled"] (.bool false)).truthy
    id := Value.firstOf entries ["id"] .null }

/-- Whether the value is a text. -/
def isText : Value → Bool
  | .text _ => true
  | _ => false

theorem sizeOf_lookup_lt {key : String} {v : Value} {entries : List (String × Value)}
    (h : Value.lookup key entries = some v) : sizeOf v < sizeOf entries := by
  induction entries with
  | nil => simp at h
  | cons e entries ih =>
    obtain ⟨k, w⟩ := e
    simp only [Value.lookup] at h
    split at h
    · simp only [Option.some.injEq] at h
      subst h
      simp only [List.cons.sizeOf_spec, Prod.mk.sizeOf_spec]
      omega
    · have := ih h
      simp only [List.cons.sizeOf_spec]
      omega

mutual
/-- The tree of a map.  Fails for any other value, for a rule without a field
or an operator, for `rules` that are no list, and for texts in `rules` that are
not the combinators of an interleaved group. -/
def ofValue : Value → Result Node
  | .map entries =>
    match h : Value.lookup "rules" entries with
    | none => ruleOfEntries entries
    | some (.list rules) =>
      have : sizeOf rules < sizeOf entries := by
        have := sizeOf_lookup_lt h
        simp only [Value.list.sizeOf_spec] at this
        omega
      match Value.lookup "combinator" entries with
      | none =>
        if rules.any isText then do
          interleave (flagsOfEntries entries) (← itemsOfValues rules)
        else do
          return .group (.text "and") (flagsOfEntries entries) (← childrenOfValues rules)
      | some combinator => do
        return .group combinator (flagsOfEntries entries) (← childrenOfValues rules)
    | some _ => .error (.invalidTree .rulesNotAList)
  | v => .error (.invalidTree (.notAMapping v.kindName))
termination_by v => sizeOf v

/-- The children of a standard group. -/
def childrenOfValues : List Value → Result (List Node)
  | [] => .ok []
  | .text _ :: _ => .error (.invalidTree .strayCombinator)
  | v :: rest => do
    let node ← ofValue v
    return node :: (← childrenOfValues rest)
termination_by vs => sizeOf vs

/-- The members and combinators of an interleaved group. -/
def itemsOfValues : List Value → Result (List Node)
  | [] => .ok []
  | .text s :: rest => do
    return .bare (.text s) :: (← itemsOfValues rest)
  | v :: rest => do
    let node ← ofValue v
    return node :: (← itemsOfValues rest)
termination_by vs => sizeOf vs
end

end Node
end RuleTree
