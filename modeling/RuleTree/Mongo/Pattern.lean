import RuleTree.Text.Pieces
import RuleTree.Node

/-! # Text patterns

Text matches are regular expressions in which every special character is
escaped, anchored on the side that may not go on.  `ofText` writes the pattern
of a text, and `read?` gives back the operator and the text of a pattern that
uses no more of regular expressions than that.  `rule` is the rule of a pattern
in the dialects that have them.
-/
namespace RuleTree
namespace Pattern

/-- The characters that are escaped in a pattern. -/
def specials : List Char :=
  ['(', ')', '[', ']', '{', '}', '?', '*', '+', '-', '|', '^', '$', '\\', '.', '&', '~', '#',
    ' ', '\t', '\n', '\r', '\x0b', '\x0c']

/-- A character as a pattern that matches it alone. -/
def escapeChar (c : Char) : List Char := if specials.contains c then ['\\', c] else [c]

/-- A text as a pattern that matches it alone. -/
def escape (cs : List Char) : List Char := cs.flatMap escapeChar

/-- The pattern of a text match. -/
def ofText (operator : Operator) (s : String) : String :=
  let body := escape s.toList
  String.ofList (if operator.anchorsStart then '^' :: body
    else if operator.anchorsEnd then body ++ ['$']
    else body)

/-- The characters that mean more than themselves unless a backslash precedes
them. -/
def metaCharacters : List Char :=
  ['.', '*', '+', '?', '(', ')', '[', ']', '{', '}', '|', '^', '$']

/-- Whether some character means more than itself; `escaped` says whether a
backslash precedes the text. -/
def hasMeta (escaped : Bool) : List Char → Bool
  | [] => false
  | c :: cs => (!escaped && metaCharacters.contains c) || hasMeta (c == '\\') cs

/-- A pattern without the backslashes of its escapes.  A backslash before a line
break or at the end is no escape. -/
def unescape : List Char → List Char
  | [] => []
  | ['\\'] => ['\\']
  | '\\' :: c :: cs => if c = '\n' then '\\' :: '\n' :: unescape cs else c :: unescape cs
  | c :: cs => c :: unescape cs

/-- Whether a pattern is anchored at its end: by a dollar sign that no backslash
precedes. -/
def endsAnchored (cs : List Char) : Bool :=
  match cs.reverse with
  | '$' :: '\\' :: _ => false
  | '$' :: _ => true
  | _ => false

/-- The operator and the text of a pattern; none if the pattern uses more of
regular expressions than anchors and escapes. -/
def read? (cs : List Char) : Option (Operator × List Char) :=
  let starts := cs.head? == some '^'
  let ends := endsAnchored cs
  let body := if starts then cs.tail else cs
  let body := if ends then body.dropLast else body
  if hasMeta false body then none
  else
    some (match starts, ends with
      | true, true => (.eq, unescape body)
      | true, false => (.beginsWith, unescape body)
      | false, true => (.endsWith, unescape body)
      | false, false => (.contains, unescape body))

/-- What a dialect calls patterns. -/
def token (dialect : Value) : String :=
  if dialect.asText? = some "mongodb" then "$regex" else "matches"

/-- The rule of a field and a pattern. -/
def rule (dialect field pattern : Value) : Result Rule :=
  match pattern with
  | .text s =>
    match read? s.toList with
    | some (operator, text) =>
      .ok { field := field, operator := operator.toValue, value := .text (String.ofList text) }
    | none => .error (.unrepresentable (.text (token dialect)) dialect)
  | _ => (ParseFault.patternNotText field.display).fail

end Pattern
end RuleTree
