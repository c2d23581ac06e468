import RuleTree.Options.Parse

/-! # Options as given

Options come as nothing, as the name of a format, as a row of settings, or ready
made; further settings may override them.
-/
namespace RuleTree

/-- What a caller gives for options of a kind. -/
inductive OptionsInput (O : Type) where
  | defaults
  | name (s : String)
  | settings (row : List (String × OptionValue))
  | options (o : O)
  /-- Anything else, by the name of its kind. -/
  | other (kind : String)

/-- The options for writing that a caller gives, with further settings. -/
def FormatOptions.build (input : OptionsInput FormatOptions)
    (overrides : List (String × OptionValue)) : Result FormatOptions := do
  let base ← match input with
    | .defaults => pure {}
    | .name s => pure { format := .text s }
    | .settings row => ({} : FormatOptions).merge row
    | .options o => pure o
    | .other kind => throw (.invalidOption (.optionsKind kind))
  base.merge overrides

/-- The options for reading that a caller gives, with further settings. -/
def ParseOptions.build (input : OptionsInput ParseOptions)
    (overrides : List (String × OptionValue)) : Result ParseOptions := do
  let base ← match input with
    | .defaults => pure {}
    | .name _ => throw (.invalidOption (.optionsKind (Value.text "").kindName))
    | .settings row => ({} : ParseOptions).merge row
    | .options o => pure o
    | .other kind => throw (.invalidOption (.optionsKind kind))
  base.merge overrides

end RuleTree
