import RuleTree.Number.Numeral
import RuleTree.Source.Token
import RuleTree.Text.Pieces

/-! # Lexicons

How the tokens of a language are spelled.  Only the terminals that may come next
are looked for: where a name may, the longest one is taken, and it counts as a
keyword if the whole of it is one that may come next; elsewhere a keyword needs
no end.  The main definition is `Lexicon.token?`.

A lexeme is measured by its `extent`: how many characters of it follow the first
one.
-/
namespace RuleTree
namespace Source

/-- The blanks between tokens. -/
def isSpace (c : Char) : Bool := c = ' ' || c = '\t' || c = '\x0c' || c = '\r' || c = '\n'

/-- A source without its leading blanks. -/
def skipSpaces (cs : List Char) : List Char := cs.dropWhile isSpace

theorem length_skipSpaces_le (cs : List Char) : (skipSpaces cs).length ≤ cs.length :=
  Text.length_dropWhile_le isSpace cs

/-! ### Letters -/

/-- An ASCII letter. -/
def isLetter (c : Char) : Bool := ('a' ≤ c && c ≤ 'z') || ('A' ≤ c && c ≤ 'Z')

/-- An ASCII digit. -/
def isAsciiDigit (c : Char) : Bool := '0' ≤ c && c ≤ '9'

/-- A character that differs from an ASCII letter in case alone: the long s, the
kelvin sign, and the i without a dot or with one in upper case. -/
def isCaseVariant (c : Char) : Bool :=
  c = '\u017f' || c = '\u212a' || c = '\u0131' || c = '\u0130'

/-- A letter whatever its case. -/
def isFoldedLetter (c : Char) : Bool := isLetter c || isCaseVariant c

/-- The lower case letter that a character is a form of; other characters are
left alone. -/
def foldCase (c : Char) : Char :=
  if c = '\u017f' then 's'
  else if c = '\u212a' then 'k'
  else if c = '\u0131' || c = '\u0130' then 'i'
  else c.toLower

/-! ### Extents -/

/-- The extent of the longest name with a first character of one class and the
others of another. -/
def nameExtent? (first rest : Char → Bool) (c : Char) (cs : List Char) : Option Nat :=
  if first c then some (cs.takeWhile rest).length else none

/-- The length of the longest continuation of a name of segments with points
between them: characters of the current segment, or a point and the start of the
next one. -/
def segmentsLength (first rest : Char → Bool) : List Char → Nat
  | [] => 0
  | '.' :: c :: cs => if first c then segmentsLength first rest cs + 2 else 0
  | c :: cs => if rest c then segmentsLength first rest cs + 1 else 0

/-- The extent of the longest name of segments with points between them. -/
def dottedExtent? (first rest : Char → Bool) (c : Char) (cs : List Char) : Option Nat :=
  if first c then some (segmentsLength first rest cs) else none

/-- The length up to the closing quote, itself included.  A quote that another
follows belongs to the text, unless the text would not end otherwise. -/
def closeDoubled? (quote : Char) : List Char → Option Nat
  | [] => none
  | [c] => if c = quote then some 1 else none
  | c :: d :: cs =>
    if c = quote then
      if d = quote then
        match closeDoubled? quote cs with
        | some n => some (n + 2)
        | none => some 1
      else some 1
    else (closeDoubled? quote (d :: cs)).map (· + 1)

/-- The length up to the closing quote, itself included, where a backslash takes
the next character into the text.  A line break cannot be taken in so. -/
def closeEscaped? (quote : Char) : List Char → Option Nat
  | [] => none
  | ['\\'] => none
  | '\\' :: c :: cs => if c = '\n' then none else (closeEscaped? quote cs).map (· + 2)
  | c :: cs => if c = quote then some 1 else (closeEscaped? quote cs).map (· + 1)

/-- The length up to the next occurrence of a mark, itself included. -/
def closePlain? (mark : Char) : List Char → Option Nat
  | [] => none
  | c :: cs => if c = mark then some 1 else (closePlain? mark cs).map (· + 1)

/-- The extent of the longest numeral. -/
def numberExtent? (c : Char) (cs : List Char) : Option Nat :=
  (Numeral.read? (c :: cs)).map fun (_, rest) => cs.length - rest.length

/-- The extent of fixed characters under a folding of case. -/
def fixedExtent? (fold : Char → Char) (characters : List Char) (c : Char) (cs : List Char) :
    Option Nat :=
  let n := characters.length - 1
  if (c :: cs.take n).map fold = characters then some n else none

/-- The extent of the first of several signs that is there. -/
def signExtent? (signs : List (List Char)) (c : Char) (cs : List Char) : Option Nat :=
  signs.findSome? fun sign => fixedExtent? id sign c cs

/-! ### Lexicons -/

/-- How the tokens of a language are spelled. -/
structure Lexicon where
  /-- The terminals in the order in which they are tried. -/
  terminals : List Terminal
  /-- How the letters of a keyword may be written. -/
  fold : Char → Char
  /-- The extent of a name, without quotes or with them, or of a text. -/
  wordExtent? : Terminal → Char → List Char → Option Nat
  /-- The signs of comparison, the longer ones first. -/
  comparators : List (List Char)

namespace Lexicon

/-- The extent of the lexeme of a terminal that starts with a character. -/
def extent? (l : Lexicon) (t : Terminal) (c : Char) (cs : List Char) : Option Nat :=
  match t with
  | .number => numberExtent? c cs
  | .comparator => signExtent? l.comparators c cs
  | .keyword k => fixedExtent? l.fold k.letters c cs
  | .mark m => fixedExtent? id m.characters c cs
  | t => l.wordExtent? t c cs

/-- The terminal of a whole name: a keyword that may come next, or a name. -/
def nameTerminal (l : Lexicon) (wanted : List Terminal) (spelling : List Char) : Terminal :=
  let isKeyword : Terminal → Bool
    | .keyword k => spelling.map l.fold = k.letters
    | _ => false
  (wanted.find? isKeyword).getD .name

/-- The token that starts with a character, if it is of a terminal that may come
next. -/
def token? (l : Lexicon) (wanted : List Terminal) (c : Char) (cs : List Char) : Option Token :=
  l.terminals.findSome? fun t =>
    if t ∈ wanted then
      (l.extent? t c cs).map fun n =>
        let spelling := c :: cs.take n
        ⟨if t = .name then l.nameTerminal wanted spelling else t, spelling⟩
    else none

end Lexicon
end Source
end RuleTree
