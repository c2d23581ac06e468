import RuleTree.Sql.Plain

/-! # SQL with parameters

A tree as a condition whose values are bound apart from the text.  A rule is a
row of pieces, texts with the parameters between them, and each parameter gets
a placeholder: a question mark, the prefix with the running number of the
parameter in the whole text, or the prefix with a name.
-/
namespace RuleTree
namespace Sql

/-- A piece of a condition. -/
inductive Piece where
  | text (s : String)
  | param (v : Value)

/-- A condition in pieces. -/
structure Skeleton where
  pieces : List Piece
  /-- Whether outer blanks are dropped once the placeholders stand. -/
  trimmed : Bool := false

namespace Skeleton

/-- A condition without parameters. -/
def ofText (s : String) : Skeleton := ⟨[.text s], false⟩

/-- The values of the parameters, in order. -/
def params (c : Skeleton) : List Value :=
  c.pieces.filterMap fun
    | .param v => some v
    | .text _ => none

/-- The pieces in a row, with a placeholder from the list for each parameter. -/
def fill : List Piece → List String → String
  | [], _ => ""
  | .text s :: rest, marks => s ++ fill rest marks
  | .param _ :: rest, [] => fill rest []
  | .param _ :: rest, mark :: marks => mark ++ fill rest marks

/-- The text of a condition with the given placeholders. -/
def render (c : Skeleton) (marks : List String) : String :=
  if c.trimmed then Text.trim (fill c.pieces marks) else fill c.pieces marks

/-- Parameters with a separator between them. -/
def paramRow (separator : String) : List Value → List Piece
  | [] => []
  | [v] => [.param v]
  | v :: w :: rest => .param v :: .text separator :: paramRow separator (w :: rest)

end Skeleton

/-- A text of single quotes around a line, as a literal of SQL. -/
def isQuotedLine (cs : List Char) : Bool :=
  2 ≤ cs.length && cs.head? == some '\'' && cs.getLast? == some '\'' && !cs.contains '\n'

/-- Whether a text is a literal in quotes, or one with a line break behind it. -/
def isQuotedLiteral (cs : List Char) : Bool :=
  isQuotedLine cs || (cs.getLast? == some '\n' && isQuotedLine cs.dropLast)

/-- The value that a literal in quotes is bound as: without its outer
characters.  Quotes inside it stay doubled. -/
def unquote : Value → Value
  | .text s =>
    if isQuotedLiteral s.toList then .text (String.ofList s.toList.tail.dropLast) else .text s
  | v => v

/-- The bound of a range as a parameter: a missing or empty one is null. -/
def boundParam (policy : NumberPolicy) : Option Value → Value
  | none => .null
  | some v => if v.isBlankValue then .null else v.withNumbers policy

/-- The parameter of a rule with one value, given the value as it is written. -/
def singleParam (policy : NumberPolicy) (operator : Operator) (given written : Value) : Value :=
  if operator.isTextMatch then unquote written
  else
    match given with
    | .text s => if policy.accepts s.toList then given.withNumbers policy else unquote written
    | v => v

/-- One rule in pieces, given the spelling of its operator and its value as it
is written; empty where a multi-value rule has no operands. -/
def skeletonOf (style : Style) (operator : Operator) (spelling : String) (r : Rule)
    (written : Value) : Skeleton :=
  let start := fieldText style r.field ++ " " ++ spelling
  if (operator.isMembership || operator.isRange) && !written.truthy then .ofText ""
  else if operator.isNullCheck then .ofText start
  else if r.comparesFields then ⟨[.text (start ++ " " ++ written.display)], true⟩
  else if operator.isMembership then
    let items := r.value.toItems.map (Value.withNumbers style.policy)
    ⟨.text (start ++ " (") :: Skeleton.paramRow ", " items ++ [.text ")"], false⟩
  else if operator.isRange then
    let bound (i : Nat) := boundParam style.policy (r.value.toPlaces[i]?)
    ⟨[.text (start ++ " "), .param (bound 0), .text " and ", .param (bound 1)], false⟩
  else
    ⟨[.text (start ++ " "), .param (singleParam style.policy operator r.value written)], true⟩

/-- The pieces of a rule, with its operator as the format of the style spells
it. -/
def ruleSkeleton (plan : FormatPlan) (r : Rule) : Result Skeleton := do
  let format := Value.text plan.style.format.name
  let operator ← Operator.resolve r.operator format
  let spelling ← operator.spellIn format
  return skeletonOf plan.style operator spelling r (← ruleValue plan r)

/-- The placeholders by position of so many parameters, after those of the
rules before. -/
def positionalMarks (style : Style) (processed : Int) (count : Nat) : List String :=
  (List.range count).map fun i =>
    if style.numbered then
      style.paramPrefix.display ++ Value.intText (processed + (i + 1 : Nat))
    else "?"

/-- The names of a row of parameters of one field. -/
def parameterNames (plan : FormatPlan) (field : Value) (asked : List Value) (count : Nat) :
    Result (List String) :=
  match plan.names, count with
  | _, 0 => .ok []
  | .absent, _ => .error (.invalidOption .noParameterNames)
  | .given names, count => names.namesFor asked (List.replicate count field)
  | _, _ => Misuse.wrongKind.fail

/-- A condition and its parameters, a list or a map. -/
structure BoundSql where
  sql : Value
  params : Value

/-- Whether parameters are bound by position. -/
def bindsByPosition (style : Style) : Bool := style.format == .dialect .parameterized

/-- One rule with its parameters.  `asked` holds the fields of the parameters
named before it, and is returned with its own added. -/
def boundRule (plan : FormatPlan) (r : Rule) (context : Option RuleContext)
    (asked : List Value) : Result (BoundSql × List Value) := do
  let skeleton ← ruleSkeleton plan r
  let params := skeleton.params
  if bindsByPosition plan.style then
    let processed := (context.map (·.processed)).getD 0
    let sql := skeleton.render (positionalMarks plan.style processed params.length)
    return (⟨.text sql, .list params⟩, asked)
  else
    let names ← parameterNames plan r.field asked params.length
    let mark := plan.style.paramPrefix.display
    let key (name : String) := if plan.style.keepPrefix then mark ++ name else name
    let named := (names.zip params).foldl (fun m e => Value.insert (key e.1) e.2 m) []
    return (⟨.text (skeleton.render (names.map (mark ++ ·))), .map named⟩,
      List.replicate params.length r.field ++ asked)

/-- What the placeholders and the parameters of a rule convert, once its value is
written. -/
def parameterConversions (style : Style) (operator : Operator) (r : Rule) (written : Value) :
    List Conversion :=
  let marked := if style.numbered || !bindsByPosition style then [.write style.paramPrefix] else []
  if (operator.isMembership || operator.isRange) && !written.truthy then []
  else if operator.isNullCheck then []
  else if r.comparesFields then [.write written]
  else if operator.isMembership then r.value.toItems.map (.read style.policy) ++ marked
  else if operator.isRange then (r.value.toPlaces.take 2).map (.read style.policy) ++ marked
  else if operator.isTextMatch then marked
  else .read style.policy r.value :: marked

/-- What `boundRule` converts. -/
def boundConversions (plan : FormatPlan) (r : Rule) : List Conversion :=
  match r.operator? with
  | none => []
  | some operator => ruleConversions plan r (parameterConversions plan.style operator r)

/-- Adds named parameters to those bound so far; no name may come twice. -/
def bindNamed : List (String × Value) → List (String × Value) → Result (List (String × Value))
  | bound, [] => .ok bound
  | bound, (name, v) :: rest =>
    match Value.lookup name bound with
    | some _ => .error (.invalidOption (.duplicateParameter name))
    | none => bindNamed (bound ++ [(name, v)]) rest

/-- Adds the parameters of a rule to those bound so far and gives its text. -/
def collect (clause : BoundSql) : Write Value := do
  let bindings ← get
  match clause.params with
  | .map entries =>
    let named ← bindNamed bindings.named entries
    set { bindings with named := named, count := bindings.count + entries.length }
  | v =>
    let params ← v.elements
    set { bindings with
      params := bindings.params ++ params, count := bindings.count + params.length }
  return clause.sql

/-- What a caller wrote for a rule: a text without parameters, a map with `sql`
and `params`, or a pair of the two. -/
def adoptBound (v : Value) : Write Value :=
  match v with
  | .text s => return .text s
  | .map entries =>
    collect ⟨Value.firstOf entries ["sql"] (.text ""), Value.firstOf entries ["params"] (.list [])⟩
  | .list [sql, params] => collect ⟨sql, params⟩
  | .list _ => throw (.misuse .wrongCount)
  | _ => throw (.misuse .wrongKind)

/-- The writer of SQL with parameters, by position or by name. -/
def boundWriter (dialect : Dialect) : Writer Value where
  dialect := dialect
  isEmpty := Value.isNothing
  write plan r context := do
    let (clause, asked) ← boundRule plan r context (← get).asked
    modify fun bindings => { bindings with asked := asked }
    collect clause
  adopt := adoptBound
  combine combinator negated _ parts := joinGroup combinator negated parts

/-- A tree as a condition with parameters. -/
def bound (dialect : Dialect) (plan : FormatPlan) (query : Node) (limit : DigitLimit := none) :
    Result BoundSql := do
  let plan := { plan with names := plan.names.orElse NameSource.perField }
  let (output, bindings) ←
    ((boundWriter dialect).within limit boundConversions fun name => [.write name]).run plan query
  let sql := output.getD (plan.fallbackOr (.text always))
  return ⟨sql, if dialect == .parameterizedNamed then .map bindings.named
    else .list bindings.params⟩

end Sql
end RuleTree
