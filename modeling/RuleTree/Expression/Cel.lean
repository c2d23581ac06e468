import RuleTree.Expression.Call
import RuleTree.Text.Quoted

/-! # Reading CEL

The grammar of CEL conditions and what their predicates mean: comparisons,
membership in a list, and calls of text methods, with `!`, `&&`, `||` and
parentheses around them.  Keywords are told apart by case.  A name behind a sign
of comparison or in a list cannot be called or compared, so less is looked for
behind it than behind one where a term starts.
-/
namespace RuleTree
namespace Cel
open Source Expression

/-- A predicate, derived from its tokens. -/
inductive Predicate where
  | comparison (left : Leaf) (operator : List Char) (right : Leaf)
  | membership (left : Leaf) (items : List Leaf)
  | call (name : List Char) (arguments : List Leaf)

/-- The leaves of a predicate. -/
def Predicate.leaves : Predicate → List Leaf
  | .comparison left _ right => [left, right]
  | .membership left items => left :: items
  | .call _ arguments => arguments

/-- A predicate that is half read. -/
inductive Partial where
  | afterLeft (v : Leaf)
  /-- Behind a sign of comparison. -/
  | afterSign (left : Leaf) (operator : List Char)
  | afterIn (left : Leaf)
  | inList (left : Leaf) (items : Items)
  | inCall (name : List Char) (arguments : Items)

namespace Partial

/-- A token behind the first value. -/
def afterLeft? (v : Leaf) (t : Token) : Option Partial :=
  match t.terminal, v with
  | .comparator, v => some (.afterSign v t.spelling)
  | .keyword .isIn, v => some (.afterIn v)
  | .mark .parenOpen, .field f => some (.inCall f.spelling .opened)
  | _, _ => none

/-- One more token of a predicate. -/
def step? (s : Partial) (t : Token) : Option (Step Partial Predicate) :=
  match s with
  | .afterLeft v => (afterLeft? v t).map .more
  | .afterSign left operator => t.leaf?.map fun v => .done (.comparison left operator v)
  | .afterIn left =>
    if t.terminal = .mark .bracketOpen then some (.more (.inList left .opened)) else none
  | .inList left items => (items.step? .bracketClose t).map fun
    | .more items => .more (.inList left items)
    | .done items => .done (.membership left items)
  | .inCall name arguments => (arguments.step? .parenClose t).map fun
    | .more arguments => .more (.inCall name arguments)
    | .done arguments => .done (.call name arguments)

end Partial

/-! ### Terminals -/

/-- The terminals behind a literal. -/
def behindLiteral : List Terminal :=
  [.comparator, .keyword .isIn, .mark .ampersands, .mark .bars, .mark .comma,
    .mark .parenClose, .mark .bracketClose]

/-- The terminals behind the first value of a predicate. -/
def behindLeft : Leaf → List Terminal
  | .field _ => [.comparator, .keyword .isIn, .mark .parenOpen]
  | _ => behindLiteral

/-- The terminals behind any other value. -/
def behindRight : Leaf → List Terminal
  | .field _ =>
    [.mark .ampersands, .mark .bars, .mark .comma, .mark .parenClose, .mark .bracketClose]
  | _ => behindLiteral

/-- The terminals behind a predicate that does not end with a value. -/
def behindTerm : List Terminal := [.mark .ampersands, .mark .bars, .mark .parenClose]

/-- The terminals in a list that ends with the mark. -/
def inItems (close : Mark) : Items → List Terminal
  | .opened => .mark close :: values
  | .item _ last => behindRight last
  | .comma _ => values

/-- The terminals inside a predicate. -/
def insidePredicate : Partial → List Terminal
  | .afterLeft v => behindLeft v
  | .afterSign _ _ => values
  | .afterIn _ => [.mark .bracketOpen]
  | .inList _ items => inItems .bracketClose items
  | .inCall _ arguments => inItems .parenClose arguments

/-- The terminals behind a predicate. -/
def behindPredicate : Predicate → List Terminal
  | .comparison _ _ right => behindRight right
  | .membership _ _ => behindTerm
  | .call _ _ => behindTerm

/-! ### Spelling -/

/-- The first character of a segment of a name. -/
def startsName (c : Char) : Bool := isLetter c || c = '_'

/-- Any other character of a segment of a name. -/
def continuesName (c : Char) : Bool := startsName c || isAsciiDigit c

/-- The extent of a name or a text.  A backslash takes the next character into a
text. -/
def wordExtent? (t : Terminal) (c : Char) (cs : List Char) : Option Nat :=
  match t with
  | .name => dottedExtent? startsName continuesName c cs
  | .text => if c = '"' || c = '\'' then closeEscaped? c cs else none
  | _ => none

/-- The words and signs of CEL. -/
def lexicon : Lexicon where
  terminals :=
    [.name, .text, .number, .comparator, .keyword .falseValue, .keyword .nullValue,
      .keyword .trueValue, .keyword .isIn, .mark .ampersands, .mark .bars, .mark .bang,
      .mark .comma, .mark .parenOpen, .mark .parenClose, .mark .bracketOpen,
      .mark .bracketClose]
  fold := id
  wordExtent? := wordExtent?
  comparators := comparators

/-- The grammar of CEL conditions. -/
def grammar : Grammar Partial Predicate where
  lexicon := lexicon
  negations := [.mark .bang]
  junction?
    | .mark .ampersands => some .and
    | .mark .bars => some .or
    | _ => none
  start? t := t.leaf?.map .afterLeft
  step? := Partial.step?
  atStart := .mark .bang :: .mark .parenOpen :: values
  inside := insidePredicate
  behind := behindPredicate
  behindGroup := behindTerm

/-! ### Meaning -/

/-- The operand that a leaf stands for. -/
def operand : Leaf → Operand :=
  Leaf.operand nameOf fun spelling => Text.unescaped spelling.tail.dropLast

/-- The clause of a predicate. -/
def predicateClause : Predicate → Result Clause
  | .comparison left operator right =>
    comparisonClause .cel true (operand left) (String.ofList operator) (operand right)
  | .membership left items =>
    match operand left with
    | .field f => (Clause.listRule f .isIn (items.map operand)).map .rule
    | .literal _ => ParseFault.membershipOfLiteral.fail
  | .call name arguments =>
    (callRule .cel (String.ofList name) (arguments.map operand)).map .rule

/-- The complement of a clause.  That of a membership in parentheses is the
opposite membership, since the operator has no negated form. -/
def negate : Clause → Result Clause
  | .group false (.rule r) [] =>
    if r.operator?.any (· = .isIn) then .ok (.rule (Clause.invertRule r))
    else Clause.negate (.group false (.rule r) [])
  | c => Clause.negate c

/-- The meaning of CEL conditions. -/
def meaning : Meaning Predicate where
  predicate := predicateClause
  negation := negate

/-- The tree of a condition. -/
def read (plan : ParsePlan) (source : Value) (limit : DigitLimit := none) : Result Node := do
  let clause ← readText grammar (meaning.within Predicate.leaves limit) .cel source
  Clause.toTree traits plan clause limit

end Cel
end RuleTree
