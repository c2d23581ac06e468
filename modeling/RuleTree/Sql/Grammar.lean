import RuleTree.Source.Formula

/-! # The grammar of SQL conditions

The conditions of a `where` clause: comparisons, `like`, `in` with a list,
`between`, `is null`, and `not`, `and`, `or` and parentheses around them.  Names
may stand in double quotes, back quotes or brackets.

What may come next depends on the last token more than on what it belongs to:
behind a field, wherever it stands, everything is looked for that may follow a
field anywhere, and likewise behind a literal.
-/
namespace RuleTree
namespace Sql
open Source

/-- A predicate, derived from its tokens. -/
inductive Predicate where
  | comparison (left : Leaf) (operator : List Char) (right : Leaf)
  | like (field : FieldName) (negated : Bool) (pattern : Leaf)
  | membership (field : FieldName) (negated : Bool) (items : List Leaf)
  | range (field : FieldName) (negated : Bool) (low high : Leaf)
  | nullCheck (field : FieldName) (negated : Bool)

/-- The leaves of a predicate besides the field that it is about. -/
def Predicate.leaves : Predicate → List Leaf
  | .comparison left _ right => [left, right]
  | .like _ _ pattern => [pattern]
  | .membership _ _ items => items
  | .range _ _ low high => [low, high]
  | .nullCheck _ _ => []

/-- A predicate that is half read. -/
inductive Partial where
  | afterLeft (v : Leaf)
  /-- Behind a sign of comparison. -/
  | afterSign (left : Leaf) (operator : List Char)
  | afterNot (field : FieldName)
  | afterLike (field : FieldName) (negated : Bool)
  | afterIn (field : FieldName) (negated : Bool)
  | inList (field : FieldName) (negated : Bool) (items : Items)
  | afterBetween (field : FieldName) (negated : Bool)
  /-- Behind the lower bound. -/
  | afterLow (field : FieldName) (negated : Bool) (low : Leaf)
  /-- Behind the `and` of a range. -/
  | afterAnd (field : FieldName) (negated : Bool) (low : Leaf)
  | afterIs (field : FieldName)
  | afterIsNot (field : FieldName)

namespace Partial

/-- The operator of a field, negated or not. -/
def ofKeyword? (field : FieldName) (negated : Bool) : Keyword → Option Partial
  | .like => some (.afterLike field negated)
  | .isIn => some (.afterIn field negated)
  | .between => some (.afterBetween field negated)
  | _ => none

/-- A token behind the first value. -/
def afterLeft? (v : Leaf) (t : Token) : Option Partial :=
  match t.terminal, v with
  | .comparator, v => some (.afterSign v t.spelling)
  | .keyword .not, .field f => some (.afterNot f)
  | .keyword .is, .field f => some (.afterIs f)
  | .keyword k, .field f => ofKeyword? f false k
  | _, _ => none

/-- One more token of a predicate. -/
def step? (s : Partial) (t : Token) : Option (Step Partial Predicate) :=
  match s with
  | .afterLeft v => (afterLeft? v t).map .more
  | .afterSign left operator => t.leaf?.map fun v => .done (.comparison left operator v)
  | .afterNot field => match t.terminal with
    | .keyword k => (ofKeyword? field true k).map .more
    | _ => none
  | .afterLike field negated => t.leaf?.map fun v => .done (.like field negated v)
  | .afterIn field negated =>
    if t.terminal = .mark .parenOpen then some (.more (.inList field negated .opened)) else none
  | .inList field negated items => (items.step? .parenClose t).map fun
    | .more items => .more (.inList field negated items)
    | .done items => .done (.membership field negated items)
  | .afterBetween field negated => t.leaf?.map fun v => .more (.afterLow field negated v)
  | .afterLow field negated low =>
    if t.terminal = .keyword .and then some (.more (.afterAnd field negated low)) else none
  | .afterAnd field negated low => t.leaf?.map fun v => .done (.range field negated low v)
  | .afterIs field => match t.terminal with
    | .keyword .not => some (.more (.afterIsNot field))
    | .keyword .nullValue => some (.done (.nullCheck field false))
    | _ => none
  | .afterIsNot field =>
    if t.terminal = .keyword .nullValue then some (.done (.nullCheck field true)) else none

end Partial

/-! ### Terminals -/

/-- The terminals of values. -/
def values : List Terminal := .name :: .quotedName :: literals

/-- The terminals behind a value. -/
def behindLeaf : Leaf → List Terminal
  | .field _ =>
    [.comparator, .keyword .and, .keyword .or, .keyword .not, .keyword .like, .keyword .isIn,
      .keyword .between, .keyword .is, .mark .comma, .mark .parenClose]
  | _ => [.comparator, .keyword .and, .keyword .or, .mark .comma, .mark .parenClose]

/-- The terminals behind a predicate that does not end with a value. -/
def behindTerm : List Terminal := [.keyword .and, .keyword .or, .mark .parenClose]

/-- The terminals in a list. -/
def inList : Items → List Terminal
  | .opened => .mark .parenClose :: values
  | .item _ last => behindLeaf last
  | .comma _ => values

/-- The terminals inside a predicate. -/
def insidePredicate : Partial → List Terminal
  | .afterLeft v => behindLeaf v
  | .afterSign _ _ => values
  | .afterNot _ => [.keyword .like, .keyword .isIn, .keyword .between]
  | .afterLike _ _ => values
  | .afterIn _ _ => [.mark .parenOpen]
  | .inList _ _ items => inList items
  | .afterBetween _ _ => values
  | .afterLow _ _ low => behindLeaf low
  | .afterAnd _ _ _ => values
  | .afterIs _ => [.keyword .not, .keyword .nullValue]
  | .afterIsNot _ => [.keyword .nullValue]

/-- The terminals behind a predicate. -/
def behindPredicate : Predicate → List Terminal
  | .comparison _ _ right => behindLeaf right
  | .like _ _ pattern => behindLeaf pattern
  | .range _ _ _ high => behindLeaf high
  | .membership _ _ _ => behindTerm
  | .nullCheck _ _ => behindTerm

/-! ### Spelling -/

/-- The first character of a name. -/
def startsName (c : Char) : Bool := isFoldedLetter c || c = '_'

/-- Any other character of a name. -/
def continuesName (c : Char) : Bool :=
  startsName c || isAsciiDigit c || c = '.' || c = '$'

/-- The extent of a name or a text.  The quote of a name in double quotes and
that of a text are doubled inside it. -/
def wordExtent? (t : Terminal) (c : Char) (cs : List Char) : Option Nat :=
  match t with
  | .name => nameExtent? startsName continuesName c cs
  | .quotedName =>
    if c = '"' then closeDoubled? '"' cs
    else if c = '\x60' then closePlain? '\x60' cs
    else if c = '[' then closePlain? ']' cs
    else none
  | .text => if c = '\'' then closeDoubled? '\'' cs else none
  | _ => none

/-- The words and signs of SQL. -/
def lexicon : Lexicon where
  terminals :=
    [.name, .quotedName, .text, .number, .comparator, .keyword .between, .keyword .falseValue,
      .keyword .like, .keyword .nullValue, .keyword .trueValue, .keyword .and, .keyword .not,
      .keyword .isIn, .keyword .is, .keyword .or, .mark .comma, .mark .parenOpen,
      .mark .parenClose]
  fold := foldCase
  wordExtent? := wordExtent?
  comparators :=
    [['<', '>'], ['!', '='], ['<', '='], ['>', '='], ['=', '='], ['='], ['<'], ['>']]

/-- The grammar of SQL conditions. -/
def grammar : Grammar Partial Predicate where
  lexicon := lexicon
  negations := [.keyword .not]
  junction?
    | .keyword .and => some .and
    | .keyword .or => some .or
    | _ => none
  start? t := t.leaf?.map .afterLeft
  step? := Partial.step?
  atStart := .keyword .not :: .mark .parenOpen :: values
  inside := insidePredicate
  behind := behindPredicate
  behindGroup := behindTerm

end Sql
end RuleTree
