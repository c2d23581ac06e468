import RuleTree.Text.Pieces
import RuleTree.Text.Printable

/-! # Quoted text

Text shown inside a larger value or a message is `quoted`: in single quotes,
unless it holds a single quote and no double one.  The quote and the backslash
are escaped, the line breaks and the tab have letters, and the other
unprintable characters are written by code point in two, four or eight
hexadecimal digits.

Texts between quotes in the manner of C are `escaped`: a backslash stands before
every backslash and every quote.  `unescaped` takes the backslashes away again,
and also reads the letters for line feed, tab and carriage return.
-/
namespace RuleTree
namespace Text

/-- The quote that a text is shown in. -/
def quoteFor (cs : List Char) : Char :=
  if cs.contains '\'' && !cs.contains '"' then '"' else '\''

/-- The lowest `width` hexadecimal digits of a number. -/
def hexDigits : Nat → Nat → List Char
  | 0, _ => []
  | width + 1, n => hexDigits width (n / 16) ++ [Nat.digitChar (n % 16)]

/-- One character as it stands between the quotes. -/
def quotedChar (quote c : Char) : List Char :=
  if c = quote ∨ c = '\\' then ['\\', c]
  else if c = '\n' then ['\\', 'n']
  else if c = '\r' then ['\\', 'r']
  else if c = '\t' then ['\\', 't']
  else if isPrintable c then [c]
  else if c.toNat < 0x100 then '\\' :: 'x' :: hexDigits 2 c.toNat
  else if c.toNat < 0x10000 then '\\' :: 'u' :: hexDigits 4 c.toNat
  else '\\' :: 'U' :: hexDigits 8 c.toNat

/-- A text in quotes, on one line and printable throughout. -/
def quoted (s : String) : String :=
  let quote := quoteFor s.toList
  String.ofList (quote :: s.toList.flatMap (quotedChar quote) ++ [quote])

/-! ### Backslash escapes -/

/-- A text with a backslash before every backslash and every quote. -/
def escaped (quote s : String) : String :=
  replace (replace s "\\" "\\\\") quote ("\\" ++ quote)

/-- The character that an escaped one stands for. -/
def escapedMeaning (c : Char) : Char :=
  if c = 'n' then '\n' else if c = 't' then '\t' else if c = 'r' then '\r' else c

/-- A text without the backslashes of its escapes.  A backslash before a line
break or at the end is no escape. -/
def unescaped : List Char → List Char
  | [] => []
  | ['\\'] => ['\\']
  | '\\' :: c :: cs =>
    if c = '\n' then '\\' :: '\n' :: unescaped cs else escapedMeaning c :: unescaped cs
  | c :: cs => c :: unescaped cs

end Text
end RuleTree
