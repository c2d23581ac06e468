import RuleTree.Options.Naming
import RuleTree.Options.Preset
import RuleTree.Operator.Spelling
import RuleTree.Validation

/-! # Options for writing

`FormatOptions` holds the options as a caller gives them, `FormatPlan` what they
come to once every default is applied: the `Style` that the writers of rules
look at, and the functions that a caller puts in their place.  `resolve` goes
from the one to the other.
-/
namespace RuleTree

/-- What a tree is written as. -/
inductive Format where
  | json
  | jsonWithoutIds
  | dialect (d : Dialect)
  deriving DecidableEq

namespace Format

/-- The name of a format. -/
def name : Format → String
  | .json => "json"
  | .jsonWithoutIds => "json_without_ids"
  | .dialect d => d.name

/-- The format of a name. -/
def ofName? (s : String) : Option Format :=
  if s == "json" then some .json
  else if s == "json_without_ids" then some .jsonWithoutIds
  else (Dialect.ofName? s).map .dialect

end Format

/-- How rules are written. -/
structure Style where
  format : Format := .json
  policy : NumberPolicy := .never
  /-- What stands before and after a field name. -/
  quotes : Value × Value := (.text "", .text "")
  /-- The operator or function that joins texts. -/
  concat : Value := .text "||"
  /-- What marks a named or numbered placeholder. -/
  paramPrefix : Value := .text ":"
  /-- Whether parameters are bound under their marked names. -/
  keepPrefix : Bool := false
  /-- Whether placeholders are numbered. -/
  numbered : Bool := false
  fields : FieldTable := []

/-- What is known about a rule besides the rule. -/
structure RuleContext where
  path : Path
  /-- How many parameters the rules before it bind. -/
  processed : Int := 0
  field : Option Field := none

/-- A function that a caller may give. -/
inductive Hook (F : Type) where
  | absent
  /-- A false value, which is as good as none where there is a default. -/
  | blank
  /-- Any other value that is no function. -/
  | unusable
  | given (f : F)

/-- Whether anything is given, a function or not. -/
def Hook.isGiven {F : Type} : Hook F → Bool
  | .absent => false
  | _ => true

/-- The function of a hook where nothing is given. -/
def Hook.orElse {F : Type} (hook : Hook F) (f : F) : Hook F :=
  match hook with
  | .absent => .given f
  | hook => hook

/-- A caller's own way to write the value of a rule. -/
abbrev ValueHook := Rule → Style → Result Value

/-- A caller's own way to write a rule; none where it leaves the rule to the
dialect. -/
abbrev RuleHook := Rule → Style → Option RuleContext → Result (Option Value)

/-- Everything that writing a tree depends on. -/
structure FormatPlan where
  style : Style := {}
  names : Hook NameSource := .absent
  valueHook : Hook ValueHook := .absent
  ruleHook : Hook RuleHook := .absent
  /-- What an empty query is written as; null for the usual of the dialect. -/
  fallback : Value := .null
  /-- Whether invalid rules and groups are left out. -/
  validate : Bool := false
  validator : Hook Validator := .absent

/-- The options for writing as a caller gives them. -/
structure FormatOptions where
  format : Value := .text "json"
  parseNumbers : Value := .text "never"
  quotes : Value := .null
  concat : Value := .null
  paramPrefix : Value := .null
  keepPrefix : Value := .bool false
  numbered : Value := .null
  names : Hook NameSource := .absent
  valueHook : Hook ValueHook := .absent
  ruleHook : Hook RuleHook := .absent
  fields : FieldsInput := .other .null
  preset : Value := .null
  fallback : Value := .null
  validate : Value := .bool false
  validator : Hook Validator := .absent

/-- The value of one option. -/
inductive OptionValue where
  | plain (v : Value)
  | names (source : NameSource)
  | valueHook (hook : ValueHook)
  | ruleHook (hook : RuleHook)
  | fields (input : FieldsInput)
  | validator (v : Validator)

namespace OptionValue

/-- The value of an option that takes data. -/
def toValue : OptionValue → Value
  | .plain v => v
  | _ => .null

/-- The value of an option that takes fields. -/
def toFields : OptionValue → FieldsInput
  | .fields input => input
  | v => .other v.toValue

/-- Data in the place of a function. -/
def toHook {F : Type} : OptionValue → Hook F
  | .plain .null => .absent
  | .plain v => if v.truthy then .unusable else .blank
  | _ => .unusable

/-- The value of an option that names parameters. -/
def toNames : OptionValue → Hook NameSource
  | .names source => .given source
  | v => v.toHook

/-- The value of an option that writes values. -/
def toValueHook : OptionValue → Hook ValueHook
  | .valueHook hook => .given hook
  | v => v.toHook

/-- The value of an option that writes rules. -/
def toRuleHook : OptionValue → Hook RuleHook
  | .ruleHook hook => .given hook
  | v => v.toHook

/-- The value of an option that validates. -/
def toValidator : OptionValue → Hook Validator
  | .validator v => .given v
  | v => v.toHook

end OptionValue

namespace FormatOptions

/-- Sets the option of a name; none where there is no such option. -/
def set (o : FormatOptions) (v : OptionValue) : String → Option FormatOptions
  | "format" => some { o with format := v.toValue }
  | "parse_numbers" => some { o with parseNumbers := v.toValue }
  | "quote_field_names_with" => some { o with quotes := v.toValue }
  | "concat_operator" => some { o with concat := v.toValue }
  | "param_prefix" => some { o with paramPrefix := v.toValue }
  | "params_keep_prefix" => some { o with keepPrefix := v.toValue }
  | "numbered_params" => some { o with numbered := v.toValue }
  | "get_next_named_param" => some { o with names := v.toNames }
  | "value_processor" => some { o with valueHook := v.toValueHook }
  | "rule_processor" => some { o with ruleHook := v.toRuleHook }
  | "fields" => some { o with fields := v.toFields }
  | "preset" => some { o with preset := v.toValue }
  | "fallback_expression" => some { o with fallback := v.toValue }
  | "validate" => some { o with validate := v.toValue }
  | "validator" => some { o with validator := v.toValidator }
  | _ => none

/-- Sets the options of a row of names, spelled in snake case. -/
def construct (entries : List (String × OptionValue)) : Result FormatOptions :=
  entries.foldlM (fun o entry => match o.set entry.2 entry.1 with
    | some o => .ok o
    | none => Misuse.wrongKind.fail) {}

/-- Sets the options of a row of names, spelled in snake case or camel case. -/
def merge (o : FormatOptions) (entries : List (String × OptionValue)) : Result FormatOptions :=
  entries.foldlM (fun o entry =>
    match (o.set entry.2 entry.1).or (o.set entry.2 (snakeCase entry.1)) with
    | some o => .ok o
    | none => .error (.invalidOption (.unknownOption "FormatOptions" entry.1))) o

/-- The quotes of field names: one text for both sides, or a pair. -/
def quotePair : Value → Result (Value × Value)
  | .null => .ok (.text "", .text "")
  | .text s => .ok (.text s, .text s)
  | v => do
    match ← v.elements with
    | [q] => return (q, q)
    | [p, q] => return (if p.truthy then p else .text "", if q.truthy then q else .text "")
    | _ => throw (.invalidOption (.quotePair v))

/-- The format that a value names; nothing names JSON. -/
def formatOf (v : Value) : Result Format := do
  let name ← if v.truthy then v.requireText else pure "json"
  match Format.ofName? (Text.lower (Text.trim name)) with
  | some f => return f
  | none => throw (.invalidOption (.unknownFormat v))

/-- The settings of the preset that a value names. -/
def presetOf (v : Value) : Result (List (String × Value)) := do
  if !v.truthy then return []
  match Preset.ofName? (Text.lower (Text.trim (← v.requireText))) with
  | some settings => return settings
  | none => throw (.invalidOption (.unknownPreset v))

/-- The value of an option, or the setting of the preset where it is not given. -/
def orPreset (v : Value) (preset : List (String × Value)) (name : String) (absent : Value) : Value :=
  match v with
  | .null => Value.firstOf preset [name] absent
  | v => v

/-- The options with every default applied. -/
def resolve (o : FormatOptions) : Result FormatPlan := do
  let format ← formatOf o.format
  let preset ← presetOf o.preset
  let numbered := (orPreset o.numbered preset "numbered_params" (.bool false)).truthy
  let paramPrefix := orPreset o.paramPrefix preset "param_prefix"
    (.text (if numbered then "$" else ":"))
  let policy ← NumberPolicy.ofValue o.parseNumbers
  let quotes ← quotePair (orPreset o.quotes preset "quote_field_names_with" .null)
  let concat := if o.concat.truthy then o.concat
    else Value.firstOf preset ["concat_operator"] (.text "||")
  let fields ← FieldTable.ofInput o.fields
  return {
    style := {
      format := format
      policy := policy
      quotes := quotes
      concat := concat
      paramPrefix := paramPrefix
      keepPrefix := o.keepPrefix.truthy
      numbered := numbered
      fields := fields }
    names := o.names
    valueHook := o.valueHook
    ruleHook := o.ruleHook
    fallback := o.fallback
    validate := o.validate.truthy
    validator := o.validator }

end FormatOptions
end RuleTree
