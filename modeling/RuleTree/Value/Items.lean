import RuleTree.Text.Pieces
import RuleTree.Text.Lowercase
import RuleTree.Number.Policy
import RuleTree.Error

/-! # Items

Multi-value rules take a list, or one text with commas between the items; a
backslash keeps a comma inside an item.  `toItems` gives the items of any value
and `joinItems` stores items in one text.  `withNumbers` applies a number
policy to a value.
-/
namespace RuleTree
namespace Value
open Text

/-- A text value without its outer blanks; any other value is itself. -/
def trimmed : Value → Value
  | .text s => .text (trim s)
  | v => v

/-- One item of a text with commas: trimmed, with its escaped commas plain. -/
def itemOfPiece (piece : List Char) : Value :=
  .text (String.ofList (replaceAll ['\\', ','] [','] (trimBoth piece)))

/-- The items of a value before empty ones are dealt with. -/
def rawItems : Value → List Value
  | .list items => items.map trimmed
  | .text s => (splitCommas false s.toList).map itemOfPiece
  | .null => []
  | v => [v]

/-- The items of a value; nulls and empty texts are dropped. -/
def toItems (v : Value) : List Value := v.rawItems.filter fun item => !item.isBlankValue

/-- The items of a value at their places; nulls are empty texts. -/
def toPlaces (v : Value) : List Value :=
  v.rawItems.map fun
    | .null => .text ""
    | item => item

/-- The two bounds of a range; none if one is missing or empty. -/
def bounds? (v : Value) : Option (Value × Value) :=
  match v.toPlaces with
  | low :: high :: _ =>
    if low.isBlankValue || high.isBlankValue then none else some (low, high)
  | _ => none

/-- One item in the storage of several: its commas are escaped, and a null is
empty. -/
def storedItem : Value → String
  | .null => ""
  | v => replace v.display "," "\\,"

/-- Items in one text. -/
def joinItems (items : List Value) : String := joinWith "," (items.map storedItem)

/-- The number that the policy makes of a text, and any other value itself. -/
def withNumbers (policy : NumberPolicy) : Value → Value
  | .text s => match policy.convert? s.toList with
    | some n => .ofNumber n
    | none => .text s
  | v => v

/-- Whether the value is written as a number without quotes. -/
def rendersAsNumber (policy : NumberPolicy) : Value → Bool
  | .text s => policy.accepts s.toList
  | v => v.isNumber

/-- Whether the value is a text that is a complete numeral. -/
def isNumericText : Value → Bool
  | .text s => NumberPolicy.accepts .strict s.toList
  | _ => false

/-- What a value gives one by one: the items of a list, the characters of a
text, the keys of a map.  Other values give nothing to go through. -/
def elements : Value → Result (List Value)
  | .list items => .ok items
  | .text s => .ok (s.toList.map fun c => .text (String.ofList [c]))
  | .map entries => .ok (entries.map fun e => .text e.1)
  | _ => Misuse.wrongKind.fail

/-- Whether a number is less than an integer; only numbers and truth values
compare with one. -/
def lessThanInt (v : Value) (n : Int) : Result Bool :=
  match v, v.asInt? with
  | .float x, _ => .ok (x.lessThanInt n)
  | _, some m => .ok (m < n)
  | _, none => Misuse.wrongKind.fail

/-- The sum of two numbers, where truth values count, and two texts or lists in
a row. -/
def plus (v w : Value) : Result Value :=
  match v, w, v.asInt?, w.asInt? with
  | _, _, some n, some m => .ok (.int (n + m))
  | .float x, .float y, _, _ => .ok (.float (x.add y))
  | .float x, _, _, some m => .ok (.float (x.add (.ofInt m)))
  | _, .float y, some n, _ => .ok (.float (Binary64.add (.ofInt n) y))
  | .text s, .text t, _, _ => .ok (.text (s ++ t))
  | .list xs, .list ys, _, _ => .ok (.list (xs ++ ys))
  | _, _, _, _ => Misuse.wrongKind.fail

/-- The text of a value that must be one to have the operation asked of it. -/
def requireText : Value → Result String
  | .text s => .ok s
  | _ => Misuse.missingOperation.fail

end Value

namespace NumberPolicy

/-- The names of the policies that a text may give, in lower case. -/
def aliases : List (String × NumberPolicy) :=
  [("", .never), ("false", .never), ("never", .never), ("0", .never),
    ("true", .strict), ("strict", .strict), ("1", .strict),
    ("always", .always), ("native", .always), ("enhanced", .enhanced)]

/-- The policy that a value names: null and false are `never`, true is `strict`. -/
def ofValue : Value → Result NumberPolicy
  | .null => .ok .never
  | .bool b => .ok (if b then .strict else .never)
  | .text s =>
    let key := Text.lower (Text.trim s)
    match aliases.find? fun entry => entry.1 == key with
    | some entry => .ok entry.2
    | none => .error (.unknownPolicy (.text s))
  | v => .error (.unknownPolicy v)

end NumberPolicy
end RuleTree
