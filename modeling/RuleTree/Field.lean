import RuleTree.Node
import RuleTree.Value.Items

/-! # Field configuration

What a caller says about the fields of a query: labels, data types, allowed
operators, and checks of its own.  A configuration is a `Field`, a map of
attributes, or a mere label; `FieldTable.ofInput` makes one table of a list or
a map of them.
-/
namespace RuleTree

/-- What the check of a field says about a rule: a judgement with reasons, or a
value that is read as one. -/
inductive Verdict where
  | judged (valid : Bool) (reasons : List Value)
  | value (v : Value)

/-- A check of the caller's own. -/
abbrev FieldCheck := Rule → Result Verdict

/-- The configuration of one field. -/
structure Field where
  name : Value
  label : Value := .null
  datatype : Value := .null
  /-- The operators that rules on the field may use; all if there are none. -/
  operators : Value := .null
  editor : Value := .text "text"
  inputType : Value := .null
  values : Value := .null
  check : Option FieldCheck := none

namespace Field

/-- The label, or the name where there is none. -/
def displayLabel (f : Field) : Value := if f.label.truthy then f.label else f.name

/-- The data types of numbers. -/
def numericDatatypes : List String :=
  ["number", "integer", "int", "float", "decimal", "double"]

/-- An attribute in lower case; nothing if it is not set. -/
def lowerAttribute (v : Value) : Result String :=
  if v.truthy then return Text.lower (← v.requireText) else return ""

/-- Whether the values of the field are numbers. -/
def isNumeric (f : Field) : Result Bool := do
  if numericDatatypes.contains (← lowerAttribute f.datatype) then return true
  return (← lowerAttribute f.inputType) == "number"

/-- Whether rules on the field may use the operator of a name. -/
def allows (f : Field) (operator : String) : Result Bool := do
  if !f.operators.truthy then return true
  let allowed ← (← f.operators.elements).mapM fun v => return Text.lower (← v.requireText)
  return allowed.contains (Text.lower operator)

/-- The name of an allowed operator, given as a name or as a map with one. -/
def operatorName : Value → Result Value
  | .map entries => match Value.lookup "name" entries with
    | some v => .ok v
    | none => Misuse.unknownName.fail
  | v => .ok v

/-- The configuration that a map of attributes gives; `name` is used where the
map has none. -/
def ofMap (configuration : Value) (check : Option FieldCheck) (name : Value) : Result Field :=
  match configuration with
  | .map entries => do
    let operators ← match Value.firstOf entries ["operators"] .null with
      | .null => pure Value.null
      | v => do pure (Value.list (← (← v.elements).mapM operatorName))
    return {
      name := Value.firstOf entries ["name"] name
      label := Value.firstOf entries ["label"] .null
      datatype := Value.firstOf entries ["datatype"] .null
      operators := operators
      editor := Value.firstOf entries ["valueEditorType", "value_editor_type"] (.text "text")
      inputType := Value.firstOf entries ["inputType", "input_type"] .null
      values := Value.firstOf entries ["values"] .null
      check := check }
  | _ => Misuse.missingOperation.fail

/-- A field on one line, with all its attributes. -/
def summary (f : Field) : String :=
  "Field(name=" ++ f.name.inspect ++ ", label=" ++ f.label.inspect ++ ", datatype="
    ++ f.datatype.inspect ++ ", operators=" ++ f.operators.inspect ++ ", value_editor_type="
    ++ f.editor.inspect ++ ", input_type=" ++ f.inputType.inspect ++ ", values="
    ++ f.values.inspect ++ ", validator=None)"

end Field

/-- The configuration of one field as a caller gives it. -/
inductive FieldSource where
  | field (f : Field)
  | other (configuration : Value) (check : Option FieldCheck)

/-- The configuration of all fields as a caller gives it. -/
inductive FieldsInput where
  | list (sources : List FieldSource)
  | map (sources : List (String × FieldSource))
  | other (v : Value)

/-- The fields of a query by name, in the order in which they were given. -/
abbrev FieldTable := List (Value × Field)

namespace FieldTable

/-- The field of a name. -/
def find? (table : FieldTable) (name : Value) : Result (Option Field) := do
  name.requireKey
  return (List.find? (fun entry => entry.1.equals name) table).map (·.2)

/-- Sets the field of a name: a name keeps its first place. -/
def insert (name : Value) (f : Field) : FieldTable → FieldTable
  | [] => [(name, f)]
  | entry :: rest =>
    if entry.1.equals name then (entry.1, f) :: rest else entry :: insert name f rest

/-- The field of a name in a map of configurations: what is neither a field nor
a map is a label. -/
def fieldOfEntry (name : String) : FieldSource → Result Field
  | .field f => .ok f
  | .other (.map entries) check => Field.ofMap (.map entries) check (.text name)
  | .other v _ =>
    .ok { name := .text name, label := if v.truthy then .text v.display else .null }

/-- The field of an item in a list of configurations, which must have a name. -/
def fieldOfItem (source : FieldSource) : Result Field := do
  let f ← match source with
    | .field f => pure f
    | .other v check => Field.ofMap v check .null
  if f.name.truthy then return f
  let shown := match source with
    | .field f => f.summary
    | .other v _ => v.inspect
  throw (.invalidTree (.unnamedField shown))

/-- The table of the fields that a caller gives. -/
def ofInput : FieldsInput → Result FieldTable
  | .list sources => sources.foldlM (fun table source => do
      let f ← fieldOfItem source
      f.name.requireKey
      return insert f.name f table) []
  | .map sources => sources.foldlM (fun table source => do
      return insert (.text source.1) (← fieldOfEntry source.1 source.2) table) []
  | .other v => do
    if !v.truthy then return []
    (← v.elements).foldlM (fun table item => do
      let f ← fieldOfItem (.other item none)
      f.name.requireKey
      return insert f.name f table) []

end FieldTable
end RuleTree
