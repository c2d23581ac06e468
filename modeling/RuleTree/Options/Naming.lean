import RuleTree.Text.Word
import RuleTree.Text.Pieces
import RuleTree.Text.Lowercase
import RuleTree.Error

/-! # Names of options and parameters

Option names are accepted in snake case and in camel case.  Named parameters
get their names from a `NameSource`, which is told the field and the fields that
it was asked about before; `perField` numbers the parameters of each field.
-/
namespace RuleTree

/-- A name in snake case: an underscore before each capital but the first
character, all in lower case. -/
def snakeCase (name : String) : String :=
  match name.toList with
  | [] => ""
  | c :: cs =>
    Text.lower (String.ofList (c :: cs.flatMap fun d =>
      if 'A' ≤ d ∧ d ≤ 'Z' then ['_', d] else [d]))

/-- Gives a parameter of a field its name.  The second argument holds the
fields of the parameters named before it in the same call, the last one first. -/
abbrev NameSource := Value → List Value → Result String

namespace NameSource

/-- A field as the stem of a parameter name: every character that is no word
character is an underscore. -/
def stem (field : String) : String :=
  String.ofList (field.toList.map fun c => if Text.isWord c then c else '_')

/-- The stem of a field given as a value. -/
def stem? : Value → Option String
  | .text s => some (stem s)
  | _ => none

/-- The stem of the field and how many parameters have had that stem, from one
on: no name comes twice. -/
def perField : NameSource := fun field earlier =>
  match stem? field with
  | none => Misuse.wrongKind.fail
  | some base =>
    let count := (earlier.filter fun f => stem? f == some base).length
    .ok (base ++ "_" ++ Value.natText (count + 1))

/-- The names for a row of fields. -/
def namesFor (source : NameSource) : List Value → List Value → Result (List String)
  | _, [] => .ok []
  | earlier, field :: rest => do
    let name ← source field earlier
    return name :: (← namesFor source (field :: earlier) rest)

end NameSource
end RuleTree
