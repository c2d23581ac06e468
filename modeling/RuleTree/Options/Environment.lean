import RuleTree.Options.Format

/-! # Options from the environment

Options for writing may also come from environment variables.  `settings` reads
those that are set into a row of option names and values.
-/
namespace RuleTree

/-- The texts of the environment variables that are set. -/
structure Environment where
  parseNumbers : Option String := none
  paramPrefix : Option String := none
  numbered : Option String := none
  quotes : Option String := none
  preset : Option String := none

namespace Environment

/-- The words that switch something on. -/
def isOn (s : String) : Bool :=
  ["1", "true", "yes", "on"].contains (Text.lower (Text.trim s))

/-- A setting of at least one character. -/
def nonempty (setting : Option String) : Option String := setting.filter (· != "")

/-- The first and the last character of a text. -/
def ends (s : String) : Value :=
  match s.toList, s.toList.getLast? with
  | first :: _, some last =>
    .list [.text (String.ofList [first]), .text (String.ofList [last])]
  | _, _ => .list []

/-- The options that the environment sets. -/
def settings (env : Environment) : Result (List (String × Value)) := do
  let parseNumbers ← match nonempty env.parseNumbers with
    | some s => do pure [("parse_numbers", Value.text (← NumberPolicy.ofValue (.text s)).name)]
    | none => pure []
  let entry (name : String) (v : Option Value) : List (String × Value) :=
    v.toList.map fun v => (name, v)
  return parseNumbers
    ++ entry "param_prefix" ((nonempty env.paramPrefix).map .text)
    ++ entry "numbered_params" (env.numbered.map fun s => .bool (isOn s))
    ++ entry "quote_field_names_with" ((nonempty env.quotes).map ends)
    ++ entry "preset" ((nonempty env.preset).map .text)

end Environment
end RuleTree
