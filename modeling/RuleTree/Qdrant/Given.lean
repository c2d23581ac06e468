import RuleTree.Qdrant.Filter
import RuleTree.Number.Numeral
import RuleTree.Text.Pieces
import RuleTree.Text.Lowercase

/-! # Search conditions as callers write them

A caller may write a condition as a map.  `Given.condition` says which maps are
conditions and gives their normal form: values of the kinds that Qdrant stores,
and no entries that are null.  Truth values, integers and floating point numbers
may stand for one another where no value is lost, and so may the texts of them;
the values of a match are taken as they are.
-/
namespace RuleTree
namespace Qdrant
namespace Given

/-- The normal form of a value of some kind. -/
abbrev Reader := Value → Result Value

/-- No value of the kind. -/
def refuse {α : Type} : Result α := Misuse.rejected.fail

/-! ### Plain values -/

/-- A text. -/
def text : Reader
  | .text s => .ok (.text s)
  | _ => refuse

/-- The number that a text of ASCII characters writes between its outer blanks. -/
def numberOfText? (cs : List Char) : Option Number :=
  match Numeral.read? (Text.trimBoth cs) with
  | some (numeral, []) =>
    if (Text.trimBoth cs).all fun c => c.val < 128 then some numeral.value else none
  | _ => none

/-- An integer. -/
def whole : Reader
  | .text s => match numberOfText? s.toList with
    | some (.int n) => .ok (.int n)
    | _ => refuse
  | v => match v.asInt? with
    | some n => .ok (.int n)
    | none => refuse

/-- A floating point number. -/
def real : Reader
  | .text s => match numberOfText? s.toList with
    | some (.int n) => .ok (.float (.ofInt n))
    | some (.float x) => .ok (.float x)
    | none => refuse
  | v => (Test.boundOf v).map .float

/-- The words for truth values, in lower case. -/
def truthWords : List (String × Bool) :=
  [("1", true), ("t", true), ("true", true), ("y", true), ("yes", true), ("on", true),
    ("0", false), ("f", false), ("false", false), ("n", false), ("no", false), ("off", false)]

/-- A truth value: one of the words for it, or zero or one. -/
def truth : Reader
  | .text s => match truthWords.find? fun w => w.1 == Text.lower s with
    | some w => .ok (.bool w.2)
    | none => refuse
  | v =>
    if v.equals (.int 1) then .ok (.bool true)
    else if v.equals (.int 0) then .ok (.bool false)
    else refuse

/-- A value to match. -/
def matched : Reader := fun v => (Test.ofValue v).map fun _ => v

/-- Values one of which is to match. -/
def anyMatched : Reader
  | .list vs => (Test.ofValues vs).map fun _ => .list vs
  | _ => refuse

/-- The names of points: integers and texts. -/
def pointNames : Reader
  | .list vs => do
    let _ ← vs.mapM fun v => match v with
      | .int _ => .ok v
      | v => text v
    return .list vs
  | _ => refuse

/-! ### Records -/

/-- An entry of a record. -/
structure Entry where
  key : String
  read : Reader
  required : Bool := false

/-- Reads one entry of a record, if it is there. -/
def Entry.ofMap (e : Entry) (entries : List (String × Value)) :
    Result (Option (String × Value)) :=
  match Value.lookup e.key entries with
  | none => if e.required then refuse else .ok none
  | some .null => if e.required then refuse else .ok none
  | some v => (e.read v).map fun v => some (e.key, v)

/-- A map with some of the entries, and with all that are required. -/
def record (shape : List Entry) : Reader
  | .map entries =>
    if entries.all fun e => shape.any fun s => s.key == e.1 then do
      return .map ((← shape.mapM fun e => e.ofMap entries).filterMap id)
    else refuse
  | _ => refuse

/-- A list of values of one kind. -/
def items (read : Reader) : Reader
  | .list vs => do return .list (← vs.mapM read)
  | _ => refuse

/-- A value of the first of some kinds that it is of. -/
def oneOf : List Reader → Reader
  | [], _ => refuse
  | read :: rest, v => match read v with
    | .ok v => .ok v
    | .error _ => oneOf rest v

/-- A match of a value.  The values that a match leaves out are stored under
another key than they are given. -/
def matching : Reader :=
  let only (key : String) (read : Reader) := record [⟨key, read, true⟩]
  oneOf [only "value" matched, only "text" text, only "text_any" text, only "phrase" text,
    only "any" anyMatched,
    fun v => do match ← only "except" anyMatched v with
      | .map entries => return .map (entries.map fun e => ("except_", e.2))
      | v => return v]

/-- Bounds whose values are of one kind. -/
def bounds (read : Reader) : Reader :=
  record [⟨"lt", read, false⟩, ⟨"gt", read, false⟩, ⟨"gte", read, false⟩, ⟨"lte", read, false⟩]

/-- A point on the globe. -/
def point : Reader := record [⟨"lon", real, true⟩, ⟨"lat", real, true⟩]

/-- A line between points on the globe. -/
def line : Reader := record [⟨"points", items point, true⟩]

/-- A condition on a key. -/
def field : Reader :=
  record [⟨"key", text, true⟩, ⟨"match", matching, false⟩, ⟨"range", bounds real, false⟩,
    ⟨"geo_bounding_box", record [⟨"top_left", point, true⟩, ⟨"bottom_right", point, true⟩], false⟩,
    ⟨"geo_radius", record [⟨"center", point, true⟩, ⟨"radius", real, true⟩], false⟩,
    ⟨"geo_polygon", record [⟨"exterior", line, true⟩, ⟨"interiors", items line, false⟩], false⟩,
    ⟨"values_count", bounds whole, false⟩, ⟨"is_empty", truth, false⟩, ⟨"is_null", truth, false⟩]

/-- The conditions without conditions inside, by a key that they have. -/
def leaves : List (String × Reader) :=
  let payloadKey := record [⟨"key", text, true⟩]
  [("key", field), ("is_empty", record [⟨"is_empty", payloadKey, true⟩]),
    ("is_null", record [⟨"is_null", payloadKey, true⟩]),
    ("has_id", record [⟨"has_id", pointNames, true⟩]),
    ("has_vector", record [⟨"has_vector", text, true⟩])]

/-- The normal form of a map as a condition without conditions inside; none if
it can be none. -/
def leaf? (entries : List (String × Value)) : Option (Result Value) :=
  (leaves.find? fun l => Value.hasKey l.1 entries).map fun l => l.2 (.map entries)

/-! ### Conditions -/

/-- Whether a key is that of a clause of a filter. -/
def isClause (key : String) : Bool := key == "must" || key == "should" || key == "must_not"

mutual
/-- A condition. -/
def condition : Value → Result Value
  | .map [("nested", .map entries)] =>
    if entries.length == 2 then do
      return .map [("nested", .map (← inner entries))]
    else refuse
  | .map entries => match leaf? entries with
    | some leaf => leaf
    | none => do return .map (← clauses entries)
  | _ => refuse

/-- Conditions in a list. -/
def conditions : List Value → Result (List Value)
  | [] => .ok []
  | v :: rest => do
    let v ← condition v
    return v :: (← conditions rest)

/-- The key and the filter of a condition on nested records. -/
def inner : List (String × Value) → Result (List (String × Value))
  | [] => .ok []
  | ("key", .text s) :: rest => do return ("key", .text s) :: (← inner rest)
  | ("filter", .map entries) :: rest => do
    let entries ← clauses entries
    return ("filter", .map entries) :: (← inner rest)
  | _ => refuse

/-- The clauses of a filter: lists of conditions, or single ones. -/
def clauses : List (String × Value) → Result (List (String × Value))
  | [] => .ok []
  | (key, .null) :: rest => if isClause key || key == "min_should" then clauses rest else refuse
  | (key, .list vs) :: rest =>
    if isClause key then do
      let vs ← conditions vs
      return (key, .list vs) :: (← clauses rest)
    else refuse
  | ("min_should", .map entries) :: rest =>
    if entries.length == 2 then do
      let entries ← choice entries
      return ("min_should", .map entries) :: (← clauses rest)
    else refuse
  | (key, v) :: rest =>
    if isClause key then do
      let v ← condition v
      return (key, v) :: (← clauses rest)
    else refuse

/-- The conditions of which some should hold, and how many. -/
def choice : List (String × Value) → Result (List (String × Value))
  | [] => .ok []
  | ("conditions", .list vs) :: rest => do
    let vs ← conditions vs
    return ("conditions", .list vs) :: (← choice rest)
  | ("min_count", v) :: rest => do
    let n ← whole v
    return ("min_count", n) :: (← choice rest)
  | _ => refuse
end

/-- The filter that a map states. -/
def filter (entries : List (String × Value)) : Result Condition := do
  return .given (.map (← clauses entries))

end Given
end Qdrant
end RuleTree
