import RuleTree.Expression.Cel
import RuleTree.Expression.Spel
import RuleTree.Expression.Writing
import RuleTree.Json.Writer
import RuleTree.JsonLogic.Reading
import RuleTree.JsonLogic.Writing
import RuleTree.Mongo.Reading
import RuleTree.Mongo.Writing
import RuleTree.Node.Exchange
import RuleTree.Options.Input
import RuleTree.Prose
import RuleTree.Qdrant.Writing
import RuleTree.Sql.Bound
import RuleTree.Sql.Plain
import RuleTree.Sql.Reading

/-! # Queries in every form

`Query.format` writes a tree in any of the formats and `Query.parse` reads a
source in any of the dialects that have a reader.  `Query.writeRule` writes a
single rule as a dialect does by default.
-/
namespace RuleTree
namespace Query

/-- What a tree is written to: a value, a condition with its parameters, or a
search filter. -/
inductive Output where
  | value (v : Value)
  | bound (b : Sql.BoundSql)
  | filter (f : Qdrant.Filter)

/-- A map stands for the tree that it describes; any other node is itself. -/
def ofInput : Node → Result Node
  | .bare (.map entries) => Node.ofValue (.map entries)
  | node => .ok node

/-- A filter as an output; an empty query has none. -/
def filterOutput (plan : FormatPlan) : Option Qdrant.Filter → Output
  | some f => .filter f
  | none => .value plan.fallback

/-- A tree in a dialect. -/
def write (d : Dialect) (plan : FormatPlan) (query : Node) (limit : DigitLimit := none) :
    Result Output :=
  match d with
  | .sql => (Sql.plain plan query limit).map .value
  | .parameterized => (Sql.bound .parameterized plan query limit).map .bound
  | .parameterizedNamed => (Sql.bound .parameterizedNamed plan query limit).map .bound
  | .mongodb => (Mongo.format plan query limit).map .value
  | .jsonlogic => (JsonLogic.format plan query limit).map .value
  | .cel => (Language.format .cel plan query limit).map .value
  | .spel => (Language.format .spel plan query limit).map .value
  | .naturalLanguage => (Prose.format plan query limit).map .value
  | .qdrant => (Qdrant.filter? {} plan query limit).map (filterOutput plan)

/-- A tree as JSON, with or without its ids. -/
def writeJson (withIds : Bool) (tree : Node) (limit : DigitLimit := none) : Result Output := do
  let v ← tree.toValue withIds
  limit.check [.write v]
  return .value (.text (Json.pretty v))

/-- A tree in the format of the options. -/
def format (options : FormatOptions) (query : Node) (limit : DigitLimit := none) :
    Result Output :=
  limit.worded do
    let plan ← options.resolve
    let tree ← ofInput query
    match plan.style.format with
    | .json => writeJson true tree limit
    | .jsonWithoutIds => writeJson false tree limit
    | .dialect d => write d plan tree limit

/-- What writing one rule by default converts. -/
def ruleConversions (d : Dialect) (plan : FormatPlan) (r : Rule) : List Conversion :=
  match d with
  | .sql => Sql.plainConversions plan r
  | .parameterized => Sql.boundConversions plan r
  | .parameterizedNamed => Sql.boundConversions plan r
  | .mongodb => Mongo.conversions plan r
  | .jsonlogic => JsonLogic.conversions plan r
  | .cel => Language.conversions plan r
  | .spel => Language.conversions plan r
  | .naturalLanguage => Prose.conversions plan r
  | .qdrant => Qdrant.conversions {} plan r

/-- One rule as a dialect writes it by default. -/
def writeRule (d : Dialect) (plan : FormatPlan) (r : Rule) (context : Option RuleContext)
    (limit : DigitLimit := none) : Result Output := do
  limit.check (ruleConversions d plan r)
  match d with
  | .sql => (Sql.plainRule plan r).map fun s => .value (.text s)
  | .parameterized => (Sql.boundRule plan r context []).map fun b => .bound b.1
  | .parameterizedNamed => (Sql.boundRule plan r context []).map fun b => .bound b.1
  | .mongodb => (Mongo.writeRule plan r).map .value
  | .jsonlogic => (JsonLogic.writeRule plan r).map .value
  | .cel => (Language.writeRule .cel plan r).map fun s => .value (.text s)
  | .spel => (Language.writeRule .spel plan r).map fun s => .value (.text s)
  | .naturalLanguage => (Prose.writeRule plan r).map fun s => .value (.text s)
  | .qdrant => (Qdrant.writeRule {} plan r context).map .filter

/-- One rule as a part of a filter, in the format of the plan.  Only filters and
maps with the clauses of one can be parts. -/
def writePart (plan : FormatPlan) (r : Rule) (context : Option RuleContext)
    (limit : DigitLimit := none) : Result Qdrant.Part :=
  match plan.style.format with
  | .dialect d => do
    match ← writeRule d plan r context limit with
    | .value v => return .given v
    | .bound b => return .given (.list [b.sql, b.params])
    | .filter f => return .ofFilter f
  | _ => Misuse.unknownName.fail

/-- A tree as a filter over a payload.  A rule that the caller's function leaves
to the library is written in the format of the plan. -/
def writeFilter (p : Qdrant.Payload) (plan : FormatPlan) (query : Node)
    (limit : DigitLimit := none) : Result Output := do
  let writer := { (Qdrant.writer p).within limit (Qdrant.conversions p) with
    leave := fun plan r context => writePart plan r context limit }
  return filterOutput plan (← Qdrant.filterBy writer plan query)

/-! ### Reading -/

/-- Reads a source into a tree. -/
abbrev Reader := ParsePlan → Value → Result Node

/-- The readers by the names of their dialects. -/
def readers (limit : DigitLimit := none) : List (String × Reader) :=
  [("sql", fun plan v => Sql.read plan v limit), ("cel", fun plan v => Cel.read plan v limit),
    ("spel", fun plan v => Spel.read plan v limit),
    ("mongodb", fun plan v => Mongo.read plan v limit),
    ("jsonlogic", fun plan v => JsonLogic.read plan v limit)]

/-- The name of the reader that a value names, whatever its case and outer
blanks, and the reader. -/
def reader (dialect : Value) (limit : DigitLimit := none) : Result (String × Reader) := do
  let name ← if dialect.truthy then dialect.requireText else pure ""
  match (readers limit).find? fun entry => entry.1 == Text.lower (Text.trim name) with
  | some entry => return entry
  | none => throw (.invalidOption (.unknownReader dialect))

/-- What a tree is read from. -/
inductive Source where
  | value (v : Value)
  | filter (f : Qdrant.Filter)
  /-- A document with a key that is not a text. -/
  | foreign (document : Value)

/-- What can be read of an output: the text of a condition, but not its
parameters. -/
def Source.ofOutput (plan : FormatPlan) (query : Node) : Output → Result Source
  | .value v => do
    if plan.style.format = .dialect .mongodb then
      if ← Mongo.hasForeignKey plan (← ofInput query) then return .foreign v
    return .value v
  | .bound b => .ok (.value b.sql)
  | .filter f => .ok (.filter f)

/-- The fault of a filter as a source of the reader of the given name. -/
def filterFault (name : String) (f : Qdrant.Filter) : ParseFault :=
  if name = "mongodb" then .documentKind "Filter"
  else if name = "jsonlogic" then .notAnOperation f.inspect
  else .notText name "Filter"

/-- The tree of a source in a dialect. -/
def parse (source : Source) (dialect : Value) (input : OptionsInput ParseOptions)
    (overrides : List (String × OptionValue)) (limit : DigitLimit := none) : Result Node :=
  limit.worded do
    let (name, read) ← reader dialect limit
    let plan ← (← ParseOptions.build input overrides).resolve
    match source with
    | .value v => read plan v
    | .filter f => (filterFault name f).fail
    | .foreign document =>
      if name = "mongodb" then Misuse.missingOperation.fail else read plan document

end Query
end RuleTree
