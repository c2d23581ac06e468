import RuleTree.Expression.Call
import RuleTree.Mongo.Pattern

/-! # Reading SpEL

The grammar of SpEL conditions and what their predicates mean: comparisons with
signs or words, `matches` with a pattern, calls of text methods, and lists that
are asked whether they contain a field.  Connectives and negation have signs and
words too, in any case.  `matches` is a text match where its pattern is one.
-/
namespace RuleTree
namespace Spel
open Source Expression

/-- A predicate, derived from its tokens. -/
inductive Predicate where
  | comparison (left : Leaf) (operator : List Char) (right : Leaf)
  | matching (left right : Leaf)
  | call (name : List Char) (arguments : List Leaf)
  | listCall (items : List Leaf) (method : List Char) (argument : Leaf)

/-- The leaves of a predicate. -/
def Predicate.leaves : Predicate → List Leaf
  | .comparison left _ right => [left, right]
  | .matching left right => [left, right]
  | .call _ arguments => arguments
  | .listCall items _ argument => items ++ [argument]

/-- A predicate that is half read. -/
inductive Partial where
  | afterLeft (v : Leaf)
  /-- Behind a sign or word of comparison. -/
  | afterSign (left : Leaf) (operator : List Char)
  | afterMatches (left : Leaf)
  | inCall (name : List Char) (arguments : Items)
  | inList (items : Items)
  | afterList (items : List Leaf)
  /-- Behind the point that follows a list. -/
  | afterDot (items : List Leaf)
  | afterMethod (items : List Leaf) (method : List Char)
  /-- Behind the parenthesis that follows the method of a list. -/
  | inListCall (items : List Leaf) (method : List Char)
  | afterArgument (items : List Leaf) (method : List Char) (argument : Leaf)

/-- The words of comparison. -/
def comparisonWords : List Keyword := [.eq, .ne, .lt, .le, .gt, .ge]

namespace Partial

/-- The first token of a predicate. -/
def start? (t : Token) : Option Partial :=
  if t.terminal = .mark .braceOpen then some (.inList .opened)
  else t.leaf?.map .afterLeft

/-- A token behind the first value. -/
def afterLeft? (v : Leaf) (t : Token) : Option Partial :=
  match t.terminal, v with
  | .comparator, v => some (.afterSign v t.spelling)
  | .keyword .matching, v => some (.afterMatches v)
  | .keyword k, v => if k ∈ comparisonWords then some (.afterSign v t.spelling) else none
  | .mark .parenOpen, .field f => some (.inCall f.spelling .opened)
  | _, _ => none

/-- One more token of a predicate. -/
def step? (s : Partial) (t : Token) : Option (Step Partial Predicate) :=
  match s with
  | .afterLeft v => (afterLeft? v t).map .more
  | .afterSign left operator => t.leaf?.map fun v => .done (.comparison left operator v)
  | .afterMatches left => t.leaf?.map fun v => .done (.matching left v)
  | .inCall name arguments => (arguments.step? .parenClose t).map fun
    | .more arguments => .more (.inCall name arguments)
    | .done arguments => .done (.call name arguments)
  | .inList items => (items.step? .braceClose t).map fun
    | .more items => .more (.inList items)
    | .done items => .more (.afterList items)
  | .afterList items => if t.terminal = .mark .dot then some (.more (.afterDot items)) else none
  | .afterDot items =>
    if t.terminal = .name then some (.more (.afterMethod items t.spelling)) else none
  | .afterMethod items method =>
    if t.terminal = .mark .parenOpen then some (.more (.inListCall items method)) else none
  | .inListCall items method => t.leaf?.map fun v => .more (.afterArgument items method v)
  | .afterArgument items method argument =>
    if t.terminal = .mark .parenClose then some (.done (.listCall items method argument))
    else none

end Partial

/-! ### Terminals -/

/-- The terminals behind a term. -/
def connectives : List Terminal :=
  [.keyword .and, .keyword .or, .mark .ampersands, .mark .bars]

/-- The terminals between the operands of a comparison. -/
def comparisonSigns : List Terminal :=
  .comparator :: .keyword .matching :: comparisonWords.map .keyword

/-- The terminals behind a value that nothing more belongs to. -/
def behindItem : List Terminal :=
  .mark .comma :: .mark .parenClose :: .mark .braceClose :: connectives

/-- The terminals behind the first value of a predicate. -/
def behindLeft : Leaf → List Terminal
  | .field _ => .mark .parenOpen :: comparisonSigns
  | _ => behindItem ++ comparisonSigns

/-- The terminals behind any other value. -/
def behindRight : Leaf → List Terminal
  | .field _ => behindItem
  | _ => behindItem ++ comparisonSigns

/-- The terminals behind a predicate that does not end with a value. -/
def behindTerm : List Terminal := .mark .parenClose :: connectives

/-- The terminals in a list that ends with the mark. -/
def inItems (close : Mark) : Items → List Terminal
  | .opened => .mark close :: values
  | .item _ last => behindRight last
  | .comma _ => values

/-- The terminals inside a predicate. -/
def insidePredicate : Partial → List Terminal
  | .afterLeft v => behindLeft v
  | .afterSign _ _ => values
  | .afterMatches _ => values
  | .inCall _ arguments => inItems .parenClose arguments
  | .inList items => inItems .braceClose items
  | .afterList _ => [.mark .dot]
  | .afterDot _ => [.name]
  | .afterMethod _ _ => [.mark .parenOpen]
  | .inListCall _ _ => values
  | .afterArgument _ _ argument => behindRight argument

/-- The terminals behind a predicate. -/
def behindPredicate : Predicate → List Terminal
  | .comparison _ _ right => behindRight right
  | .matching _ right => behindRight right
  | .call _ _ => behindTerm
  | .listCall _ _ _ => behindTerm

/-! ### Spelling -/

/-- The first character of a segment of a name. -/
def startsName (c : Char) : Bool := isFoldedLetter c || c = '_'

/-- Any other character of a segment of a name. -/
def continuesName (c : Char) : Bool := startsName c || isAsciiDigit c

/-- The extent of a name or a text.  The quote of a text is doubled inside it. -/
def wordExtent? (t : Terminal) (c : Char) (cs : List Char) : Option Nat :=
  match t with
  | .name => dottedExtent? startsName continuesName c cs
  | .text => if c = '"' || c = '\'' then closeDoubled? c cs else none
  | _ => none

/-- The words and signs of SpEL. -/
def lexicon : Lexicon where
  terminals :=
    [.name, .text, .number, .comparator, .keyword .matching, .keyword .falseValue,
      .keyword .nullValue, .keyword .trueValue, .keyword .and, .keyword .not, .keyword .eq,
      .keyword .ge, .keyword .gt, .keyword .le, .keyword .lt, .keyword .ne, .keyword .or,
      .mark .ampersands, .mark .bars, .mark .bang, .mark .comma, .mark .dot,
      .mark .parenOpen, .mark .parenClose, .mark .braceOpen, .mark .braceClose]
  fold := foldCase
  wordExtent? := wordExtent?
  comparators := comparators

/-- The grammar of SpEL conditions. -/
def grammar : Grammar Partial Predicate where
  lexicon := lexicon
  negations := [.keyword .not, .mark .bang]
  junction?
    | .keyword .and => some .and
    | .keyword .or => some .or
    | .mark .ampersands => some .and
    | .mark .bars => some .or
    | _ => none
  start? := Partial.start?
  step? := Partial.step?
  atStart :=
    .keyword .not :: .mark .bang :: .mark .parenOpen :: .mark .braceOpen :: values
  inside := insidePredicate
  behind := behindPredicate
  behindGroup := behindTerm

/-! ### Meaning -/

/-- The text that a quoted one stands for: without its quotes, and with the
doubled ones inside it single. -/
def textOf (spelling : List Char) : List Char :=
  match spelling with
  | quote :: rest => Text.replaceAll [quote, quote] [quote] rest.dropLast
  | [] => []

/-- The operand that a leaf stands for. -/
def operand : Leaf → Operand := Leaf.operand nameOf textOf

/-- The clause of a predicate. -/
def predicateClause : Predicate → Result Clause
  | .comparison left operator right =>
    comparisonClause .spel true (operand left) (String.ofList operator) (operand right)
  | .matching left right =>
    match operand left, operand right with
    | .field f, .literal v => (Pattern.rule (.text "spel") (.text f) v).map .rule
    | _, _ => .error (.unrepresentable (.text "matches") (.text "spel"))
  | .call name arguments =>
    (callRule .spel (String.ofList name) (arguments.map operand)).map .rule
  | .listCall items method argument =>
    if Text.lower (String.ofList method) != "contains" then
      .error (.unrepresentable (.text (String.ofList method)) (.text "spel"))
    else
      match operand argument with
      | .field f => (Clause.listRule f .isIn (items.map operand)).map .rule
      | .literal _ => ParseFault.listCallOfLiteral.fail

/-- The meaning of SpEL conditions. -/
def meaning : Meaning Predicate where
  predicate := predicateClause

/-- The tree of a condition. -/
def read (plan : ParsePlan) (source : Value) (limit : DigitLimit := none) : Result Node := do
  let clause ← readText grammar (meaning.within Predicate.leaves limit) .spel source
  Clause.toTree traits plan clause limit

end Spel
end RuleTree
