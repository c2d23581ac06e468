import RuleTree.Source.Formula
import RuleTree.Value.DigitLimit

/-! # Reading text sources

`readFormula` goes through a source token by token, looking at each place for
the tokens that may come next.  Where none of them is there, the token that is
there, or else the character, is the fault, and the fault has the place of it.
`readText` gives the clause of a whole source.

What the predicates mean is up to the languages, but for what they share: a leaf
is a field or a literal, numerals are read as a whole and stay texts where they
are not complete, and a comparison of two equal literals is a constant.
-/
namespace RuleTree

namespace Source
variable {S P : Type}

/-- Why a source is not a formula, with what is left of it from there on. -/
inductive Stop where
  | atEnd
  | atToken (spelling rest : List Char)
  | atCharacter (c : Char) (rest : List Char)

/-- What is wrong where a character starts nothing that may come next. -/
def Stop.ofCharacter (l : Lexicon) (c : Char) (cs : List Char) : Stop :=
  match l.token? l.terminals c cs with
  | some token => .atToken token.spelling (c :: cs)
  | none => .atCharacter c (c :: cs)

/-- The formula of the rest of a source. -/
def readFrom (g : Grammar S P) (progress : Progress S P) (cs : List Char) :
    Except Stop (Formula P) :=
  match hs : skipSpaces cs with
  | [] => match progress.finish? with
    | some f => .ok f
    | none => .error .atEnd
  | c :: rest =>
    match g.lexicon.token? (progress.wanted g) c rest with
    | none => .error (Stop.ofCharacter g.lexicon c rest)
    | some token =>
      match progress.step? g token with
      | none => .error (.atToken token.spelling (c :: rest))
      | some next =>
        have hlt : rest.length < cs.length := by
          have hle := length_skipSpaces_le cs
          rwa [hs, List.length_cons] at hle
        readFrom g next (rest.drop (token.spelling.length - 1))
termination_by cs.length
decreasing_by
  rw [List.length_drop]
  omega

/-- The error of a stop in a source of a dialect. -/
def Stop.error (dialect : String) (source : List Char) : Stop → Error
  | .atEnd => .parse (.unexpectedEnd dialect) (.offset source.length)
  | .atToken spelling rest =>
    .parse (.unexpectedToken dialect (String.ofList spelling)) (place rest)
  | .atCharacter c rest => .parse (.unexpectedCharacter dialect c) (place rest)
where
  /-- Where the rest of the source starts. -/
  place (rest : List Char) : Place := Place.behind (source.take (source.length - rest.length))

/-- The formula of a source. -/
def readFormula (g : Grammar S P) (dialect : Dialect) (source : List Char) :
    Result (Formula P) :=
  match readFrom g {} source with
  | .ok f => .ok f
  | .error stop => .error (stop.error dialect.name source)

/-- The clause of a source; none if there are only blanks. -/
def readText (g : Grammar S P) (m : Meaning P) (dialect : Dialect) (source : Value) :
    Result (Option Clause) :=
  match source with
  | .text s =>
    if (Text.trimBoth s.toList).isEmpty then .ok none
    else do
      let formula ← readFormula g dialect s.toList
      return some (← m.formula formula)
  | v => (ParseFault.notText dialect.name v.kindName).fail

/-! ### Leaves and comparisons -/

/-- What reading a leaf converts: the digits of a numeral. -/
def Leaf.conversions : Leaf → List Conversion
  | .number spelling => [.read .strict (.text (String.ofList spelling))]
  | _ => []

/-- A meaning whose predicates are made once all their leaves are read. -/
def Meaning.within (m : Meaning P) (leaves : P → List Leaf) (limit : DigitLimit) : Meaning P :=
  match limit with
  | none => m
  | some _ => { m with predicate := fun p => do
      limit.check ((leaves p).flatMap Leaf.conversions)
      m.predicate p }

@[simp] theorem Meaning.within_none (m : Meaning P) (leaves : P → List Leaf) :
    m.within leaves none = m := rfl

/-- The value of a number token.  A numeral that ends with its point is no
complete one and stays a text. -/
def numberValue (spelling : List Char) : Value :=
  Value.withNumbers .strict (.text (String.ofList spelling))

/-- The operand that a leaf stands for, given how names and texts are spelled. -/
def Leaf.operand (name : FieldName → String) (text : List Char → List Char) : Leaf → Operand
  | .field f => .field (name f)
  | .text spelling => .literal (.text (String.ofList (text spelling)))
  | .number spelling => .literal (numberValue spelling)
  | .truth b => .literal (.bool b)
  | .null => .literal .null

/-- The clause of a comparison with a sign or a word of the dialect. -/
def comparisonClause (dialect : Dialect) (nullChecks : Bool) (left : Operand) (sign : String)
    (right : Operand) : Result Clause := do
  let operator ← Operator.unmapFrom (.text sign) (.text dialect.name)
  match operator, left, right with
  | .eq, .literal v, .literal w =>
    if Clause.sameLiteral v w then
      return .constant (v.inspect ++ " " ++ sign ++ " " ++ w.inspect)
    else (ParseFault.twoLiterals v operator.name w).fail
  | _, _, _ => return .rule (← Clause.comparison left operator right nullChecks)


end Source
end RuleTree
