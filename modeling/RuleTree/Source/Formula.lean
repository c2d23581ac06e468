import RuleTree.Clause
import RuleTree.Source.Lexicon

/-! # Formulas

The text sources share one shape: terms with connectives between them, where a
term is a predicate, a negated term or a formula in parentheses.  A `Grammar`
says what the predicates of a language are, token by token.  `Progress` is what
has been read so far; a token either takes it one step further or cannot come
next.  There is no precedence: a formula is a flat sequence.
-/
namespace RuleTree
namespace Source

/-- A term of a formula, derived from its tokens. -/
inductive Term (P : Type) where
  | predicate (p : P)
  | negation (t : Term P)
  /-- A formula in parentheses. -/
  | group (head : Term P) (tail : List (Junction × Term P))

/-- Terms with connectives between them. -/
structure Formula (P : Type) where
  head : Term P
  tail : List (Junction × Term P)

/-- The predicates of a language, and the signs around them. -/
structure Grammar (S P : Type) where
  lexicon : Lexicon
  /-- The terminals that negate a term. -/
  negations : List Terminal
  /-- The connective of a terminal. -/
  junction? : Terminal → Option Junction
  /-- The first token of a predicate. -/
  start? : Token → Option S
  /-- Any further token of a predicate. -/
  step? : S → Token → Option (Step S P)
  /-- What is looked for where a term starts. -/
  atStart : List Terminal
  /-- What is looked for inside a predicate. -/
  inside : S → List Terminal
  /-- What is looked for behind a predicate. -/
  behind : P → List Terminal
  /-- What is looked for behind a parenthesis. -/
  behindGroup : List Terminal

/-- Where reading stands within the innermost open group. -/
inductive Position (S P : Type) where
  /-- Before a term. -/
  | ahead
  /-- Inside a predicate. -/
  | inside (s : S)
  /-- Behind a term. -/
  | behind (t : Term P)

/-- An open group: its terms so far, the last one first, each with the
connective behind it, and how often the term to come is negated. -/
structure Level (P : Type) where
  done : List (Term P × Junction) := []
  negations : Nat := 0

/-- How far a formula has been read. -/
structure Progress (S P : Type) where
  /-- The groups around the innermost open one, that around it first. -/
  outer : List (Level P) := []
  level : Level P := {}
  position : Position S P := .ahead

variable {S P : Type}

/-- A term negated so many times. -/
def Term.negated : Nat → Term P → Term P
  | 0, t => t
  | n + 1, t => .negation (negated n t)

/-- The predicate that a term ends with; none if it ends with a parenthesis. -/
def Term.ending? : Term P → Option P
  | .predicate p => some p
  | .negation t => t.ending?
  | .group _ _ => none

/-- The formula of terms in reverse, each with the connective behind it, and of
what follows them. -/
def Formula.close : List (Term P × Junction) → Term P → List (Junction × Term P) → Formula P
  | [], head, tail => ⟨head, tail⟩
  | (t, junction) :: rest, head, tail => close rest t ((junction, head) :: tail)

namespace Progress

/-- A term is complete. -/
def complete (outer : List (Level P)) (level : Level P) (t : Term P) : Progress S P :=
  ⟨outer, { level with negations := 0 }, .behind (t.negated level.negations)⟩

/-- One token further. -/
def step? (g : Grammar S P) (progress : Progress S P) (token : Token) :
    Option (Progress S P) :=
  let ⟨outer, level, position⟩ := progress
  match position with
  | .ahead =>
    if token.terminal ∈ g.negations then
      some ⟨outer, { level with negations := level.negations + 1 }, .ahead⟩
    else if token.terminal = .mark .parenOpen then some ⟨level :: outer, {}, .ahead⟩
    else (g.start? token).map fun s => ⟨outer, level, .inside s⟩
  | .inside s =>
    (g.step? s token).map fun
      | .more s => ⟨outer, level, .inside s⟩
      | .done p => complete outer level (.predicate p)
  | .behind t =>
    match g.junction? token.terminal with
    | some junction => some ⟨outer, ⟨(t, junction) :: level.done, 0⟩, .ahead⟩
    | none =>
      if token.terminal = .mark .parenClose then
        match outer with
        | [] => none
        | around :: outer =>
          let formula := Formula.close level.done t []
          some (complete outer around (.group formula.head formula.tail))
      else none

/-- What is looked for next. -/
def wanted (g : Grammar S P) (progress : Progress S P) : List Terminal :=
  match progress.position with
  | .ahead => g.atStart
  | .inside s => g.inside s
  | .behind t => match t.ending? with
    | some p => g.behind p
    | none => g.behindGroup

/-- The formula, if it may end here. -/
def finish? (progress : Progress S P) : Option (Formula P) :=
  match progress.position, progress.outer with
  | .behind t, [] => some (Formula.close progress.level.done t [])
  | _, _ => none

end Progress

/-- The formula of a row of tokens, if the grammar has one. -/
def Grammar.formula? (g : Grammar S P) (tokens : List Token) : Option (Formula P) :=
  (tokens.foldlM (Progress.step? g) {}).bind Progress.finish?

/-! ### Meaning -/

/-- What the parts of a formula mean. -/
structure Meaning (P : Type) where
  /-- The clause of a predicate. -/
  predicate : P → Result Clause
  /-- The clause of a negated term, given that of the term. -/
  negation : Clause → Result Clause := Clause.negate

mutual
/-- The clause of a term. -/
def Meaning.term (m : Meaning P) : Term P → Result Clause
  | .predicate p => m.predicate p
  | .negation t => do m.negation (← m.term t)
  | .group head tail => do
    let first ← m.term head
    return .group false first (← m.terms tail)

/-- The clauses of terms with connectives before them, in order. -/
def Meaning.terms (m : Meaning P) : List (Junction × Term P) → Result (List (Junction × Clause))
  | [] => .ok []
  | (junction, t) :: rest => do
    let c ← m.term t
    return (junction, c) :: (← m.terms rest)
end

/-- The clause of a formula. -/
def Meaning.formula (m : Meaning P) (f : Formula P) : Result Clause := m.term (.group f.head f.tail)

end Source
end RuleTree
