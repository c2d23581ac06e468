import RuleTree.Value.Display

/-! # Writing JSON

A value as JSON text in ASCII: other characters are escaped by their UTF-16
code units.  `pretty` puts every item and entry on a line of its own, indented
by two blanks a level, and `compact` puts everything on one line without blanks.
-/
namespace RuleTree
namespace Json

/-- Four hexadecimal digits of a code unit. -/
def unitEscape (n : Nat) : List Char := '\\' :: 'u' :: Text.hexDigits 4 n

/-- A character as it stands between the quotes. -/
def escapedChar (c : Char) : List Char :=
  if c = '"' ∨ c = '\\' then ['\\', c]
  else if c = '\n' then ['\\', 'n']
  else if c = '\r' then ['\\', 'r']
  else if c = '\t' then ['\\', 't']
  else if c = '\x0c' then ['\\', 'f']
  else if c = '\x08' then ['\\', 'b']
  else if 32 ≤ c.toNat ∧ c.toNat < 127 then [c]
  else if c.toNat < 0x10000 then unitEscape c.toNat
  else
    let n := c.toNat - 0x10000
    unitEscape (0xD800 + n / 1024) ++ unitEscape (0xDC00 + n % 1024)

/-- A text in double quotes. -/
def textLiteral (s : String) : String :=
  String.ofList ('"' :: s.toList.flatMap escapedChar ++ ['"'])

/-- A floating point number; the special ones have names. -/
def floatLiteral : Binary64 → String
  | .nan => "NaN"
  | .infinite negative => if negative then "-Infinity" else "Infinity"
  | x => x.text

/-- A value that is neither a list nor a map. -/
def scalar : Value → String
  | .bool b => if b then "true" else "false"
  | .int n => Value.intText n
  | .float x => floatLiteral x
  | .text s => textLiteral s
  | _ => "null"

/-- A line break and the blanks of a level. -/
def newline (level : Nat) : String := String.ofList ('\n' :: List.replicate (2 * level) ' ')

mutual
/-- A value on several lines, inside so many others. -/
def prettyAt (level : Nat) : Value → String
  | .list [] => "[]"
  | .list (v :: rest) =>
    "[" ++ newline (level + 1) ++ prettyAt (level + 1) v ++ prettyItems (level + 1) rest
      ++ newline level ++ "]"
  | .map [] => "\x7b\x7d"
  | .map ((key, v) :: rest) =>
    "\x7b" ++ newline (level + 1) ++ textLiteral key ++ ": " ++ prettyAt (level + 1) v
      ++ prettyEntries (level + 1) rest ++ newline level ++ "\x7d"
  | v => scalar v

/-- The items after the first one, each with its comma. -/
def prettyItems (level : Nat) : List Value → String
  | [] => ""
  | v :: rest => "," ++ newline level ++ prettyAt level v ++ prettyItems level rest

/-- The entries after the first one, each with its comma. -/
def prettyEntries (level : Nat) : List (String × Value) → String
  | [] => ""
  | (key, v) :: rest =>
    "," ++ newline level ++ textLiteral key ++ ": " ++ prettyAt level v
      ++ prettyEntries level rest
end

/-- A value on several lines. -/
def pretty (v : Value) : String := prettyAt 0 v

mutual
/-- A value on one line. -/
def compact : Value → String
  | .list items => "[" ++ Text.joinWith "," (compactItems items) ++ "]"
  | .map entries => "\x7b" ++ Text.joinWith "," (compactEntries entries) ++ "\x7d"
  | v => scalar v

/-- Items on one line each. -/
def compactItems : List Value → List String
  | [] => []
  | v :: rest => compact v :: compactItems rest

/-- Entries on one line each. -/
def compactEntries : List (String × Value) → List String
  | [] => []
  | (key, v) :: rest => (textLiteral key ++ ":" ++ compact v) :: compactEntries rest
end

end Json
end RuleTree
