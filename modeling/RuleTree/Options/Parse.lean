import RuleTree.Options.Format

/-! # Options for reading

`ParseOptions` holds the options as a caller gives them and `ParsePlan` what
they come to.
-/
namespace RuleTree

/-- Everything that reading a source depends on. -/
structure ParsePlan where
  policy : NumberPolicy := .never
  /-- The only fields that a query may name; any if there are none. -/
  fields : FieldTable := []
  /-- Whether the tree keeps the interleaved shape. -/
  interleaved : Bool := false
  /-- Whether list values stay lists instead of being joined to one text. -/
  listsAsArrays : Bool := false
  /-- How deep groups may be nested, the root counting as one. -/
  maxDepth : Option Value := none

/-- The options for reading as a caller gives them. -/
structure ParseOptions where
  parseNumbers : Value := .text "never"
  fields : FieldsInput := .other .null
  interleaved : Value := .bool false
  listsAsArrays : Value := .bool false
  maxDepth : Value := .null

namespace ParseOptions

/-- Sets the option of a name; none where there is no such option. -/
def set (o : ParseOptions) (v : OptionValue) : String → Option ParseOptions
  | "parse_numbers" => some { o with parseNumbers := v.toValue }
  | "fields" => some { o with fields := v.toFields }
  | "independent_combinators" => some { o with interleaved := v.toValue }
  | "lists_as_arrays" => some { o with listsAsArrays := v.toValue }
  | "max_depth" => some { o with maxDepth := v.toValue }
  | _ => none

/-- Sets the options of a row of names, spelled in snake case. -/
def construct (entries : List (String × OptionValue)) : Result ParseOptions :=
  entries.foldlM (fun o entry => match o.set entry.2 entry.1 with
    | some o => .ok o
    | none => Misuse.wrongKind.fail) {}

/-- Sets the options of a row of names, spelled in snake case or camel case. -/
def merge (o : ParseOptions) (entries : List (String × OptionValue)) : Result ParseOptions :=
  entries.foldlM (fun o entry =>
    match (o.set entry.2 entry.1).or (o.set entry.2 (snakeCase entry.1)) with
    | some o => .ok o
    | none => .error (.invalidOption (.unknownOption "ParseOptions" entry.1))) o

/-- The options with every default applied. -/
def resolve (o : ParseOptions) : Result ParsePlan := do
  let maxDepth ← match o.maxDepth with
    | .null => pure none
    | limit => do
      if ← limit.lessThanInt 1 then throw (.invalidOption .depthTooSmall)
      pure (some limit)
  let policy ← NumberPolicy.ofValue o.parseNumbers
  let fields ← FieldTable.ofInput o.fields
  return {
    policy := policy
    fields := fields
    interleaved := o.interleaved.truthy
    listsAsArrays := o.listsAsArrays.truthy
    maxDepth := maxDepth }

end ParseOptions
end RuleTree
