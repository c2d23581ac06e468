import RuleTree.Value.Display

/-! # Errors

Everything that can go wrong when a tree is built, written or read, one
constructor per cause.  The wording of all of them is in the `message`
functions; a `Misuse` is a value of the wrong kind in a place where an operation
needs another, and has no wording.
-/
namespace RuleTree

/-- A malformed tree or field configuration. -/
inductive TreeFault where
  | evenLength (count : Nat)
  | notACombinator (position : Nat) (kind : String)
  | notAMember (position : Nat) (kind : String)
  | notAGroup (kind : String)
  | unknownPrecedence (combinators : List String)
  | notAMapping (kind : String)
  | incompleteRule (entries : Value)
  | rulesNotAList
  | strayCombinator
  | unnamedField (configuration : String)
  | unexpectedNode (kind : String) (path : Path)

/-- Inconsistent options. -/
inductive OptionFault where
  | quotePair (given : Value)
  | unknownOption (owner key : String)
  | optionsKind (kind : String)
  | unknownFormat (given : Value)
  | unknownPreset (given : Value)
  | depthTooSmall
  | unknownReader (given : Value)
  | noParameterNames
  | duplicateParameter (name : String)

/-- A value that the dialect cannot express. -/
inductive ValueFault where
  | textAgainstField (field : Value) (operator : String)
  | fieldAgainstField (field : Value)
  | floatMembership (field : Value)
  | boundNotANumber (given field : Value)

/-- What is wrong with a JSON text. -/
inductive JsonFault where
  | expectingValue
  | expectingName
  | expectingColon
  | expectingComma
  | extraData
  | unterminatedText
  | controlCharacter
  | invalidEscape
  | invalidUnicodeEscape
  | byteOrderMark
  /-- An integer is too long to be read; no message tells so. -/
  | tooManyDigits
  deriving DecidableEq

/-- Why a source is not a query. -/
inductive ParseFault where
  | negatedConstant (constant : String)
  | nestedConstant (constant : String)
  | twoLiterals (left : Value) (operator : String) (right : Value)
  | mixedOperands (field operator : String)
  | argumentCount (method : String) (count : Nat)
  | tooDeep (limit : Value)
  | notText (dialect kind : String)
  | unexpectedEnd (dialect : String)
  | unexpectedToken (dialect token : String)
  | unexpectedCharacter (dialect : String) (character : Char)
  | noReceiver (name : String)
  | membershipOfLiteral
  | listCallOfLiteral
  | patternNotText (field : String)
  | invalidJson (format : String) (fault : JsonFault)
  | documentKind (kind : String)
  | negationOfNonObject
  | logicalNotList (operator : String)
  | logicalItemNotObject (operator : String)
  | membershipNotList (operator field : String)
  | fieldNegationOfNonObject (field : String)
  | twoArguments (operator : String)
  | notAnOperation (given : String)
  | oneNegand
  | binaryCount (operator : String) (count : Nat)
  | fieldAndValue (operator : String)

/-- Where in a source a fault lies. -/
inductive Place where
  | unknown
  | offset (offset : Nat)
  | position (offset line column : Nat)
  deriving DecidableEq

/-- The place in a source behind its first part: the line and the column count
from one, and lines end with a line feed. -/
def Place.behind (before : List Char) : Place :=
  .position before.length (before.count '\n' + 1)
    ((before.reverse.takeWhile (· != '\n')).length + 1)

/-- A value of the wrong kind in a place where an operation needs another. -/
inductive Misuse where
  /-- The value lacks the operation that is asked of it. -/
  | missingOperation
  /-- The operation does not take values of this kind. -/
  | wrongKind
  /-- A pair has other than two items. -/
  | wrongCount
  /-- No entry has the name. -/
  | unknownName
  /-- No item has the position. -/
  | outOfRange
  /-- A search condition refuses the value. -/
  | rejected
  /-- An integer has more digits than are read or written at once. -/
  | tooManyDigits
  deriving DecidableEq

/-- Everything that can go wrong. -/
inductive Error where
  | unknownField (field : Value) (path : Path)
  | unsupportedOperator (operator dialect : Value) (path : Option Path)
  | unrepresentable (token dialect : Value)
  | invalidOption (fault : OptionFault)
  | unsupportedValue (fault : ValueFault)
  | invalidTree (fault : TreeFault)
  | parse (fault : ParseFault) (place : Place)
  | unknownPolicy (given : Value)
  | misuse (fault : Misuse)

open Value in
/-- The wording of a tree fault. -/
def TreeFault.message : TreeFault → String
  | .evenLength count => "Interleaved group must have 2n-1 entries, got " ++ natText count
  | .notACombinator position kind =>
    "Expected combinator string at position " ++ natText position ++ ", got " ++ kind
  | .notAMember position kind =>
    "Expected rule or interleaved group at position " ++ natText position ++ ", got " ++ kind
  | .notAGroup kind => "Not a rule group: " ++ kind
  | .unknownPrecedence combinators =>
    "Cannot order mixed combinators with unknown precedence: "
      ++ inspect (.list (combinators.map .text))
  | .notAMapping kind => "Expected a mapping, got " ++ kind
  | .incompleteRule entries => "Rule requires 'field' and 'operator': " ++ inspect entries
  | .rulesNotAList => "'rules' must be a list"
  | .strayCombinator => "Combinator strings are only allowed in interleaved groups"
  | .unnamedField configuration => "Field configuration without a name: " ++ configuration
  | .unexpectedNode kind path => "Unexpected node " ++ kind ++ " at path " ++ pathText path

/-- The wording of an option fault. -/
def OptionFault.message : OptionFault → String
  | .quotePair given => "quote_field_names_with needs one or two strings, got " ++ given.inspect
  | .unknownOption owner key => "Unknown " ++ owner ++ " option: " ++ key
  | .optionsKind kind => "Unsupported options type: " ++ kind
  | .unknownFormat given => "Unknown format: " ++ given.display
  | .unknownPreset given => "Unknown SQL preset: " ++ given.display
  | .depthTooSmall => "max_depth must be at least 1"
  | .unknownReader given => "Unknown parse dialect: " ++ given.display
  | .noParameterNames => "Named parameters require get_next_named_param"
  | .duplicateParameter name => "Duplicate parameter name: " ++ name

/-- The wording of a value fault. -/
def ValueFault.message : ValueFault → String
  | .textAgainstField field operator =>
    "mongodb cannot compare '" ++ field.display ++ "' " ++ operator ++ " against another field"
  | .fieldAgainstField field =>
    "qdrant cannot compare field '" ++ field.display ++ "' against another field"
  | .floatMembership field => "qdrant cannot match '" ++ field.display ++ "' against floats"
  | .boundNotANumber given field =>
    "qdrant ranges need numbers, got " ++ given.inspect ++ " for '" ++ field.display ++ "'"

/-- The wording of a JSON fault. -/
def JsonFault.message : JsonFault → String
  | .expectingValue => "Expecting value"
  | .expectingName => "Expecting property name enclosed in double quotes"
  | .expectingColon => "Expecting ':' delimiter"
  | .expectingComma => "Expecting ',' delimiter"
  | .extraData => "Extra data"
  | .unterminatedText => "Unterminated string starting at"
  | .controlCharacter => "Invalid control character at"
  | .invalidEscape => "Invalid \\escape"
  | .invalidUnicodeEscape => "Invalid \\uXXXX escape"
  | .byteOrderMark => "Unexpected UTF-8 BOM (decode using utf-8-sig)"
  | .tooManyDigits => ""

open Value in
/-- The wording of a parse fault, without its place. -/
def ParseFault.message : ParseFault → String
  | .negatedConstant constant => "Constant comparison " ++ constant ++ " cannot be negated"
  | .nestedConstant constant =>
    "Constant comparison " ++ constant ++ " must be the whole expression"
  | .twoLiterals left operator right =>
    "Comparison of two literals: " ++ left.inspect ++ " " ++ operator ++ " " ++ right.inspect
  | .mixedOperands field operator =>
    "Cannot mix fields and literals in '" ++ field ++ "' " ++ operator
  | .argumentCount method count =>
    method ++ "() takes exactly one argument, got " ++ natText count
  | .tooDeep limit => "Query nesting exceeds maximum depth of " ++ limit.display
  | .notText dialect kind => dialect ++ " input must be a string, got " ++ kind
  | .unexpectedEnd dialect => "Unexpected end of " ++ dialect ++ " input"
  | .unexpectedToken dialect token =>
    "Invalid " ++ dialect ++ " expression: unexpected token " ++ Text.quoted token
  | .unexpectedCharacter dialect character =>
    "Invalid " ++ dialect ++ " expression: unexpected character "
      ++ Text.quoted (String.ofList [character])
  | .noReceiver name => "Call to '" ++ name ++ "' has no receiver"
  | .membershipOfLiteral => "Left side of 'in' must be a field"
  | .listCallOfLiteral => "Inline list contains() needs a field argument"
  | .patternNotText field => "Regex for '" ++ field ++ "' must be a string"
  | .invalidJson format fault => "Invalid " ++ format ++ " JSON: " ++ fault.message
  | .documentKind kind => "MongoDB query must be an object, got " ++ kind
  | .negationOfNonObject => "$not requires an object"
  | .logicalNotList operator => operator ++ " requires a list"
  | .logicalItemNotObject operator => operator ++ " items must be objects"
  | .membershipNotList operator field => operator ++ " for '" ++ field ++ "' requires a list"
  | .fieldNegationOfNonObject field => "$not for '" ++ field ++ "' requires an object"
  | .twoArguments operator => "$expr " ++ operator ++ " requires two arguments"
  | .notAnOperation given =>
    "Expected a single-operation JsonLogic object, got " ++ given
  | .oneNegand => "'!' takes exactly one argument"
  | .binaryCount operator count =>
    "'" ++ operator ++ "' takes two arguments, got " ++ natText count
  | .fieldAndValue operator => "'" ++ operator ++ "' takes a field and a value"

open Value in
/-- The wording of a place, after the message of the fault. -/
def Place.message : Place → String
  | .unknown => ""
  | .offset n => " (offset " ++ natText n ++ ")"
  | .position _ line column =>
    " (line " ++ natText line ++ ", column " ++ natText column ++ ")"

open Value in
/-- The wording of an error. -/
def Error.message : Error → String
  | .unknownField field path =>
    "Unknown field '" ++ field.display ++ "' at path " ++ pathText path
  | .unsupportedOperator operator dialect path =>
    "Operator '" ++ operator.display ++ "' is not supported by " ++ dialect.display
      ++ (match path with
        | some path => " (path " ++ pathText path ++ ")"
        | none => "")
  | .unrepresentable token dialect =>
    dialect.display ++ " operator '" ++ token.display ++ "' is not representable as a rule"
  | .invalidOption fault => fault.message
  | .unsupportedValue fault => fault.message
  | .invalidTree fault => fault.message
  | .parse fault place => fault.message ++ place.message
  | .unknownPolicy given => "Unknown parse_numbers policy: " ++ given.inspect
  | .misuse _ => ""

/-- What an operation that can fail gives. -/
abbrev Result (α : Type) := Except Error α

/-- Fails for a value of the wrong kind. -/
def Misuse.fail {α : Type} (m : Misuse) : Result α := .error (.misuse m)

/-- Lists and maps are no keys: nothing can be looked up by them. -/
def Value.requireKey : Value → Result Unit
  | .list _ => Misuse.wrongKind.fail
  | .map _ => Misuse.wrongKind.fail
  | _ => .ok ()

/-- Fails for a fault in a source, at an unknown place. -/
def ParseFault.fail {α : Type} (fault : ParseFault) : Result α := .error (.parse fault .unknown)

/-! ### Steps that can fail -/

/-- Two steps succeed where the first does, and the second does with its result. -/
theorem Result.bind_eq_ok {α β : Type} {x : Result α} {f : α → Result β} {b : β}
    (h : x >>= f = .ok b) : ∃ a, x = .ok a ∧ f a = .ok b := by
  cases x with
  | error e => cases h
  | ok a => exact ⟨a, rfl, h⟩

theorem Result.map_eq_ok {α β : Type} {x : Result α} {f : α → β} {b : β}
    (h : x.map f = .ok b) : ∃ a, x = .ok a ∧ f a = b := by
  cases x with
  | error e => cases h
  | ok a => exact ⟨a, rfl, Except.ok.inj h⟩

/-- Two steps fail where the first does, or where the second does with its result. -/
theorem Result.bind_eq_error {α β : Type} {x : Result α} {f : α → Result β} {e : Error}
    (h : x >>= f = .error e) : x = .error e ∨ ∃ a, x = .ok a ∧ f a = .error e := by
  cases x with
  | error e' => exact Or.inl (congrArg _ (Except.error.inj h))
  | ok a => exact Or.inr ⟨a, rfl, h⟩

/-- Two steps depend on the second one only where the first succeeds. -/
theorem Result.bind_congr {α β : Type} {x : Result α} {f g : α → Result β}
    (h : ∀ a, x = .ok a → f a = g a) : x >>= f = x >>= g := by
  cases x with
  | error e => rfl
  | ok a => exact h a rfl

theorem Result.map_bind {α β γ : Type} (x : Result α) (f : α → Result β) (g : β → γ) :
    (x >>= f).map g = x >>= fun a => (f a).map g := by
  cases x <;> rfl

theorem Result.map_eq_error {α β : Type} {x : Result α} {f : α → β} {e : Error}
    (h : x.map f = .error e) : x = .error e := by
  cases x with
  | error e' => exact congrArg _ (Except.error.inj h)
  | ok a => cases h

end RuleTree
