/-! # Tokens

What the text sources are made of: names, literals, signs of comparison,
keywords and punctuation marks.  A `Terminal` is a kind of token as a grammar
knows it, a `Token` is an occurrence of one, and a `Leaf` is a token that stands
for a field or a literal.
-/
namespace RuleTree
namespace Source

/-- The words with a meaning of their own in some language. -/
inductive Keyword where
  | and
  | or
  | not
  | like
  | isIn
  | between
  | is
  | nullValue
  | trueValue
  | falseValue
  | matching
  | eq
  | ne
  | lt
  | le
  | gt
  | ge
  deriving DecidableEq

/-- The letters of a keyword. -/
def Keyword.letters : Keyword → List Char
  | .and => ['a', 'n', 'd']
  | .or => ['o', 'r']
  | .not => ['n', 'o', 't']
  | .like => ['l', 'i', 'k', 'e']
  | .isIn => ['i', 'n']
  | .between => ['b', 'e', 't', 'w', 'e', 'e', 'n']
  | .is => ['i', 's']
  | .nullValue => ['n', 'u', 'l', 'l']
  | .trueValue => ['t', 'r', 'u', 'e']
  | .falseValue => ['f', 'a', 'l', 's', 'e']
  | .matching => ['m', 'a', 't', 'c', 'h', 'e', 's']
  | .eq => ['e', 'q']
  | .ne => ['n', 'e']
  | .lt => ['l', 't']
  | .le => ['l', 'e']
  | .gt => ['g', 't']
  | .ge => ['g', 'e']

/-- Punctuation and the signs that connect terms. -/
inductive Mark where
  | parenOpen
  | parenClose
  | bracketOpen
  | bracketClose
  | braceOpen
  | braceClose
  | comma
  | dot
  | bang
  | ampersands
  | bars
  deriving DecidableEq

/-- The characters of a mark. -/
def Mark.characters : Mark → List Char
  | .parenOpen => ['(']
  | .parenClose => [')']
  | .bracketOpen => ['[']
  | .bracketClose => [']']
  | .braceOpen => ['{']
  | .braceClose => ['}']
  | .comma => [',']
  | .dot => ['.']
  | .bang => ['!']
  | .ampersands => ['&', '&']
  | .bars => ['|', '|']

/-- A kind of token. -/
inductive Terminal where
  /-- A name without quotes. -/
  | name
  /-- A name in quotes or brackets. -/
  | quotedName
  /-- A text in quotes. -/
  | text
  | number
  /-- A sign of comparison. -/
  | comparator
  | keyword (k : Keyword)
  | mark (m : Mark)
  deriving DecidableEq

/-- A token as it stands in a source. -/
structure Token where
  terminal : Terminal
  spelling : List Char

/-- The name of a field as it stands in a source. -/
structure FieldName where
  isQuoted : Bool
  spelling : List Char

/-- A field or a literal as it stands in a source. -/
inductive Leaf where
  | field (f : FieldName)
  | text (spelling : List Char)
  | number (spelling : List Char)
  | truth (b : Bool)
  | null

/-- The field or the literal that a token is. -/
def Token.leaf? (t : Token) : Option Leaf :=
  match t.terminal with
  | .name => some (.field ⟨false, t.spelling⟩)
  | .quotedName => some (.field ⟨true, t.spelling⟩)
  | .text => some (.text t.spelling)
  | .number => some (.number t.spelling)
  | .keyword .trueValue => some (.truth true)
  | .keyword .falseValue => some (.truth false)
  | .keyword .nullValue => some .null
  | _ => none

/-- The kind of token that a leaf is written as. -/
def Leaf.terminal : Leaf → Terminal
  | .field f => if f.isQuoted then .quotedName else .name
  | .text _ => .text
  | .number _ => .number
  | .truth b => .keyword (if b then .trueValue else .falseValue)
  | .null => .keyword .nullValue

/-- The terminals of literals. -/
def literals : List Terminal :=
  [.text, .number, .keyword .trueValue, .keyword .falseValue, .keyword .nullValue]

theorem Token.terminal_of_leaf? {t : Token} {v : Leaf} (h : t.leaf? = some v) :
    v.terminal = t.terminal := by
  unfold Token.leaf? at h
  split at h <;> simp_all [Leaf.terminal] <;> (subst h; simp)

/-! ### Lists of values -/

/-- What has been read of values with commas between them, behind the mark that
opens the list.  The values are kept last one first. -/
inductive Items where
  | opened
  | item (before : List Leaf) (last : Leaf)
  | comma (before : List Leaf)

/-- What a token does to something that is half read. -/
inductive Step (S P : Type) where
  | more (s : S)
  | done (p : P)

/-- One more token of a list that ends with the mark. -/
def Items.step? (close : Mark) (items : Items) (t : Token) : Option (Step Items (List Leaf)) :=
  match items with
  | .opened =>
    if t.terminal = .mark close then some (.done [])
    else t.leaf?.map fun v => .more (.item [] v)
  | .item before last =>
    if t.terminal = .mark close then some (.done (last :: before).reverse)
    else if t.terminal = .mark .comma then some (.more (.comma (last :: before)))
    else none
  | .comma before => t.leaf?.map fun v => .more (.item before v)

end Source
end RuleTree
