import RuleTree.Proofs.Formulas
import RuleTree.Sql.Reading

/-! # Derivations of SQL conditions

The rules of the grammar of SQL conditions, one type for each symbol and one constructor
for each of its alternatives:

* a condition is terms with connectives between them, at least one;
* a connective is `and` or `or`;
* a term is `not` before a term, a condition in parentheses, or a predicate;
* a predicate is two values with a sign of comparison between them, or a field with `like`
  and a value, with `in` and values in parentheses with commas between them, with `between`
  and two values that an `and` separates, `not` standing before any of these three words or
  not, or with `is null` or `is not null`;
* a value is a field or a literal, a field is a name with or without quotes, and a literal is
  a text, a number, a truth value or null.

A tree of such a type is a derivation: it keeps every token that it is made of, in order
(`ConditionTree.tokens`), and says which clause it stands for (`ConditionTree.clause`).  No two
derivations are made of the same tokens (`ConditionTree.eq_of_tokens_eq`).
-/
namespace RuleTree
namespace Sql
open Source

/-! ### Trees -/

/-- An occurrence of a terminal. -/
structure Lexeme (t : Terminal) where
  spelling : List Char

/-- The token that it is. -/
def Lexeme.token {t : Terminal} (w : Lexeme t) : Token := ⟨t, w.spelling⟩

/-- A word that may be missing. -/
def Lexeme.tokens? {t : Terminal} (w : Option (Lexeme t)) : List Token := w.toList.map token

/-- A field. -/
inductive FieldTree where
  | name (w : Lexeme .name)
  | quotedName (w : Lexeme .quotedName)

/-- A literal. -/
inductive LiteralTree where
  | text (w : Lexeme .text)
  | number (w : Lexeme .number)
  | trueValue (w : Lexeme (.keyword .trueValue))
  | falseValue (w : Lexeme (.keyword .falseValue))
  | nullValue (w : Lexeme (.keyword .nullValue))

/-- A field or a literal. -/
inductive ValueTree where
  | field (f : FieldTree)
  | literal (v : LiteralTree)

/-- What stands between two terms. -/
inductive ConnectiveTree where
  | and (w : Lexeme (.keyword .and))
  | or (w : Lexeme (.keyword .or))

/-- Values with commas between them. -/
structure RowTree where
  first : ValueTree
  rest : List (Lexeme (.mark .comma) × ValueTree)

/-- A predicate. -/
inductive PredicateTree where
  | comparison (left : ValueTree) (sign : Lexeme .comparator) (right : ValueTree)
  | like (field : FieldTree) (not? : Option (Lexeme (.keyword .not)))
      (word : Lexeme (.keyword .like)) (pattern : ValueTree)
  | membership (field : FieldTree) (not? : Option (Lexeme (.keyword .not)))
      (isIn : Lexeme (.keyword .isIn)) (opening : Lexeme (.mark .parenOpen))
      (items : Option RowTree) (closing : Lexeme (.mark .parenClose))
  | range (field : FieldTree) (not? : Option (Lexeme (.keyword .not)))
      (between : Lexeme (.keyword .between)) (low : ValueTree) (and : Lexeme (.keyword .and))
      (high : ValueTree)
  | nullCheck (field : FieldTree) (is : Lexeme (.keyword .is))
      (not? : Option (Lexeme (.keyword .not))) (null : Lexeme (.keyword .nullValue))

/-- A term. -/
inductive TermTree where
  | negation (not : Lexeme (.keyword .not)) (t : TermTree)
  | group (opening : Lexeme (.mark .parenOpen)) (head : TermTree)
      (tail : List (ConnectiveTree × TermTree)) (closing : Lexeme (.mark .parenClose))
  | predicate (p : PredicateTree)

/-- A condition. -/
structure ConditionTree where
  head : TermTree
  tail : List (ConnectiveTree × TermTree)

/-! ### Tokens -/

def FieldTree.token : FieldTree → Token
  | .name w => w.token
  | .quotedName w => w.token

def LiteralTree.token : LiteralTree → Token
  | .text w => w.token
  | .number w => w.token
  | .trueValue w => w.token
  | .falseValue w => w.token
  | .nullValue w => w.token

def ValueTree.token : ValueTree → Token
  | .field f => f.token
  | .literal v => v.token

def ConnectiveTree.token : ConnectiveTree → Token
  | .and w => w.token
  | .or w => w.token

/-- The values of a row, each with the comma before it. -/
def RowTree.restTokens (rest : List (Lexeme (.mark .comma) × ValueTree)) : List Token :=
  rest.flatMap fun e => [e.1.token, e.2.token]

def RowTree.tokens (row : RowTree) : List Token := row.first.token :: restTokens row.rest

/-- The tokens of a row that may be missing. -/
def RowTree.tokens? (row : Option RowTree) : List Token := (row.map RowTree.tokens).getD []

def PredicateTree.tokens : PredicateTree → List Token
  | .comparison left sign right => [left.token, sign.token, right.token]
  | .like field not? word pattern =>
    field.token :: (Lexeme.tokens? not? ++ [word.token, pattern.token])
  | .membership field not? isIn opening items closing =>
    field.token :: (Lexeme.tokens? not?
      ++ isIn.token :: opening.token :: (RowTree.tokens? items ++ [closing.token]))
  | .range field not? between low and high =>
    field.token :: (Lexeme.tokens? not? ++ [between.token, low.token, and.token, high.token])
  | .nullCheck field is not? null =>
    field.token :: is.token :: (Lexeme.tokens? not? ++ [null.token])

mutual
def TermTree.tokens : TermTree → List Token
  | .negation not t => not.token :: t.tokens
  | .group opening head tail closing =>
    opening.token :: (head.tokens ++ (tailTokens tail ++ [closing.token]))
  | .predicate p => p.tokens

/-- The tokens of terms with connectives before them. -/
def TermTree.tailTokens : List (ConnectiveTree × TermTree) → List Token
  | [] => []
  | (connective, t) :: rest => connective.token :: (t.tokens ++ tailTokens rest)
end

def ConditionTree.tokens (e : ConditionTree) : List Token :=
  e.head.tokens ++ TermTree.tailTokens e.tail

mutual
/-- The tokens of a term, each with whether it connects two terms. -/
def TermTree.marked : TermTree → List (Token × Bool)
  | .negation not t => (not.token, false) :: t.marked
  | .group opening head tail closing =>
    (opening.token, false) :: (head.marked ++ (tailMarked tail ++ [(closing.token, false)]))
  | .predicate p => p.tokens.map fun t => (t, false)

def TermTree.tailMarked : List (ConnectiveTree × TermTree) → List (Token × Bool)
  | [] => []
  | (connective, t) :: rest => (connective.token, true) :: (t.marked ++ tailMarked rest)
end

def ConditionTree.marked (e : ConditionTree) : List (Token × Bool) :=
  e.head.marked ++ TermTree.tailMarked e.tail

/-! ### Meaning -/

/-- The name that a field is. -/
def FieldTree.fieldName : FieldTree → FieldName
  | .name w => ⟨false, w.spelling⟩
  | .quotedName w => ⟨true, w.spelling⟩

def LiteralTree.leaf : LiteralTree → Leaf
  | .text w => .text w.spelling
  | .number w => .number w.spelling
  | .trueValue _ => .truth true
  | .falseValue _ => .truth false
  | .nullValue _ => .null

def ValueTree.leaf : ValueTree → Leaf
  | .field f => .field f.fieldName
  | .literal v => v.leaf

def ValueTree.operand (v : ValueTree) : Operand := Sql.operand v.leaf

def ConnectiveTree.junction : ConnectiveTree → Junction
  | .and _ => .and
  | .or _ => .or

/-- The values of a row, in order; none if it is missing. -/
def RowTree.values : Option RowTree → List ValueTree
  | none => []
  | some row => row.first :: row.rest.map Prod.snd

/-- The clause of a predicate: a rule on its field, with the opposite operator behind `not`. -/
def PredicateTree.clause : PredicateTree → Result Clause
  | .comparison left sign right =>
    comparisonClause .sql false left.operand (String.ofList sign.spelling) right.operand
  | .like field not? _ pattern =>
    (patternRule field.fieldName not?.isSome pattern.leaf).map .rule
  | .membership field not? _ _ items _ =>
    (Clause.listRule (nameOf field.fieldName) (if not?.isSome then .notIn else .isIn)
      ((RowTree.values items).map ValueTree.operand)).map .rule
  | .range field not? _ low _ high =>
    (Clause.listRule (nameOf field.fieldName) (if not?.isSome then .notBetween else .between)
      [low.operand, high.operand]).map .rule
  | .nullCheck field _ not? _ =>
    .ok (.rule (Rule.of (nameOf field.fieldName) (if not?.isSome then .notNull else .null) .null))

mutual
/-- The clause of a term: the complement of the one term behind a `not`, and one flat group
for a condition in parentheses. -/
def TermTree.clause : TermTree → Result Clause
  | .negation _ t => do Clause.negate (← t.clause)
  | .group _ head tail _ => do
    let first ← head.clause
    return .group false first (← tailClauses tail)
  | .predicate p => p.clause

/-- The clauses of terms, each with the connective before it. -/
def TermTree.tailClauses : List (ConnectiveTree × TermTree) → Result (List (Junction × Clause))
  | [] => .ok []
  | (connective, t) :: rest => do
    let c ← t.clause
    return (connective.junction, c) :: (← tailClauses rest)
end

/-- The clause of a condition: one flat group of its terms. -/
def ConditionTree.clause (e : ConditionTree) : Result Clause := do
  let first ← e.head.clause
  return .group false first (← TermTree.tailClauses e.tail)

/-! ### One derivation -/

@[simp] theorem Lexeme.token_inj {t : Terminal} {w w' : Lexeme t} :
    w.token = w'.token ↔ w = w' := by
  cases w
  cases w'
  simp [token]

@[simp] theorem Lexeme.terminal_token {t : Terminal} (w : Lexeme t) : w.token.terminal = t := rfl

@[simp] theorem FieldTree.token_inj {f g : FieldTree} : f.token = g.token ↔ f = g := by
  refine ⟨fun h => ?_, fun h => h ▸ rfl⟩
  have hterminal := congrArg Token.terminal h
  cases f <;> cases g <;> first | simpa [token] using h | cases hterminal

@[simp] theorem LiteralTree.token_inj {v w : LiteralTree} : v.token = w.token ↔ v = w := by
  refine ⟨fun h => ?_, fun h => h ▸ rfl⟩
  have hterminal := congrArg Token.terminal h
  cases v <;> cases w <;> first | simpa [token] using h | cases hterminal

@[simp] theorem ValueTree.token_inj {v w : ValueTree} : v.token = w.token ↔ v = w := by
  refine ⟨fun h => ?_, fun h => h ▸ rfl⟩
  have hterminal := congrArg Token.terminal h
  cases v with
  | field f =>
    cases w with
    | field g => exact congrArg _ (FieldTree.token_inj.mp h)
    | literal w => cases f <;> cases w <;> cases hterminal
  | literal v =>
    cases w with
    | literal w => exact congrArg _ (LiteralTree.token_inj.mp h)
    | field g => cases v <;> cases g <;> cases hterminal

theorem ValueTree.terminal_mem (v : ValueTree) : v.token.terminal ∈ values := by
  rcases v with f | v
  · cases f <;> simp [token, FieldTree.token, values]
  · cases v <;> simp [token, LiteralTree.token, values, literals]

theorem ValueTree.terminal_ne (v : ValueTree) {t : Terminal} (h : t ∉ values) :
    v.token.terminal ≠ t := fun ht => h (ht ▸ v.terminal_mem)

@[simp] theorem ConnectiveTree.token_inj {c d : ConnectiveTree} : c.token = d.token ↔ c = d := by
  refine ⟨fun h => ?_, fun h => h ▸ rfl⟩
  have hterminal := congrArg Token.terminal h
  cases c <;> cases d <;> first | simpa [token] using h | cases hterminal

/-- A missing word is told from one that is there by the word behind it. -/
theorem Lexeme.tokens?_append_inj {t u : Terminal} (hne : u ≠ t) {w w' : Option (Lexeme t)}
    {x x' : Lexeme u} {r r' : List Token}
    (h : tokens? w ++ x.token :: r = tokens? w' ++ x'.token :: r') :
    w = w' ∧ x = x' ∧ r = r' := by
  cases w with
  | none =>
    cases w' with
    | none => simpa [tokens?] using h
    | some w' => exact absurd (congrArg Token.terminal (List.cons.inj h).1) hne
  | some w =>
    cases w' with
    | none => exact absurd (congrArg Token.terminal (List.cons.inj h).1).symm hne
    | some w' => simpa [tokens?] using h

/-- A row ends where no comma follows. -/
theorem RowTree.restTokens_append_inj {rest rest' : List (Lexeme (.mark .comma) × ValueTree)}
    {closing closing' : Lexeme (.mark .parenClose)} {r r' : List Token}
    (h : restTokens rest ++ closing.token :: r = restTokens rest' ++ closing'.token :: r') :
    rest = rest' ∧ closing = closing' ∧ r = r' := by
  induction rest generalizing rest' with
  | nil =>
    cases rest' with
    | nil => simpa [restTokens] using h
    | cons e' rest' => cases congrArg Token.terminal (List.cons.inj h).1
  | cons e rest ih =>
    cases rest' with
    | nil => cases congrArg Token.terminal (List.cons.inj h).1
    | cons e' rest' =>
      obtain ⟨hcomma, h⟩ := List.cons.inj h
      obtain ⟨hvalue, h⟩ := List.cons.inj h
      obtain ⟨rfl, hclosing⟩ := ih h
      have he : e = e' := Prod.ext (Lexeme.token_inj.mp hcomma) (ValueTree.token_inj.mp hvalue)
      exact ⟨by rw [he], hclosing⟩

theorem RowTree.tokens?_append_inj {row row' : Option RowTree}
    {closing closing' : Lexeme (.mark .parenClose)} {r r' : List Token}
    (h : tokens? row ++ closing.token :: r = tokens? row' ++ closing'.token :: r') :
    row = row' ∧ closing = closing' ∧ r = r' := by
  have hvalue (v : ValueTree) : v.token.terminal ≠ .mark .parenClose :=
    v.terminal_ne (by decide)
  cases row with
  | none =>
    cases row' with
    | none => simpa [tokens?] using h
    | some row' => exact absurd (congrArg Token.terminal (List.cons.inj h).1).symm (hvalue _)
  | some row =>
    cases row' with
    | none => exact absurd (congrArg Token.terminal (List.cons.inj h).1) (hvalue _)
    | some row' =>
      obtain ⟨hfirst, h⟩ := List.cons.inj h
      obtain ⟨hrest, hclosing⟩ := restTokens_append_inj h
      have hrow : row = row' := by
        cases row
        cases row'
        exact congr (congrArg _ (ValueTree.token_inj.mp hfirst)) hrest
      exact ⟨congrArg some hrow, hclosing⟩

/-- The sign or the word that says what a predicate is. -/
def PredicateTree.verb : PredicateTree → Terminal
  | .comparison _ _ _ => .comparator
  | .like _ _ _ _ => .keyword .like
  | .membership _ _ _ _ _ _ => .keyword .isIn
  | .range _ _ _ _ _ _ => .keyword .between
  | .nullCheck _ _ _ _ => .keyword .is

/-- The terminal behind the first token, but for a `not`. -/
def verb? : List Token → Option Terminal
  | _ :: t :: u :: _ => some (if t.terminal = .keyword .not then u.terminal else t.terminal)
  | _ => none

theorem PredicateTree.verb?_tokens (p : PredicateTree) (r : List Token) :
    verb? (p.tokens ++ r) = some p.verb := by
  cases p with
  | comparison left sign right => simp [tokens, verb?, verb]
  | like field not? word pattern =>
    cases not? <;> simp [tokens, Lexeme.tokens?, verb?, verb]
  | membership field not? isIn opening items closing =>
    cases not? <;> simp [tokens, Lexeme.tokens?, verb?, verb]
  | range field not? between low and high =>
    cases not? <;> simp [tokens, Lexeme.tokens?, verb?, verb]
  | nullCheck field is not? null =>
    cases not? <;> simp [tokens, Lexeme.tokens?, verb?, verb]

/-- What follows a predicate does not belong to it. -/
theorem PredicateTree.tokens_append_inj {p q : PredicateTree} {r r' : List Token}
    (h : p.tokens ++ r = q.tokens ++ r') : p = q ∧ r = r' := by
  have hverb : p.verb = q.verb :=
    Option.some.inj (by rw [← p.verb?_tokens r, h, q.verb?_tokens r'])
  cases p with
  | comparison left sign right =>
    cases q with
    | comparison left' sign' right' => simpa [tokens, and_assoc] using h
    | _ => cases hverb
  | like field not? word pattern =>
    cases q with
    | like field' not?' word' pattern' =>
      simp only [tokens, List.cons_append, List.append_assoc, List.cons.injEq,
        FieldTree.token_inj, List.nil_append] at h
      obtain ⟨rfl, h⟩ := h
      obtain ⟨rfl, rfl, h⟩ := Lexeme.tokens?_append_inj (by nofun) h
      simpa using h
    | _ => cases hverb
  | membership field not? isIn opening items closing =>
    cases q with
    | membership field' not?' isIn' opening' items' closing' =>
      simp only [tokens, List.cons_append, List.append_assoc, List.cons.injEq,
        FieldTree.token_inj, List.nil_append] at h
      obtain ⟨rfl, h⟩ := h
      obtain ⟨rfl, rfl, hrest⟩ := Lexeme.tokens?_append_inj (by nofun) h
      obtain ⟨hopening, hitems⟩ := List.cons.inj hrest
      obtain rfl := Lexeme.token_inj.mp hopening
      obtain ⟨rfl, rfl, rfl⟩ := RowTree.tokens?_append_inj hitems
      exact ⟨rfl, rfl⟩
    | _ => cases hverb
  | range field not? between low and high =>
    cases q with
    | range field' not?' between' low' and' high' =>
      simp only [tokens, List.cons_append, List.append_assoc, List.cons.injEq,
        FieldTree.token_inj, List.nil_append] at h
      obtain ⟨rfl, h⟩ := h
      obtain ⟨rfl, rfl, h⟩ := Lexeme.tokens?_append_inj (by nofun) h
      simpa [and_assoc] using h
    | _ => cases hverb
  | nullCheck field is not? null =>
    cases q with
    | nullCheck field' is' not?' null' =>
      simp only [tokens, List.cons_append, List.append_assoc, List.cons.injEq,
        FieldTree.token_inj, Lexeme.token_inj, List.nil_append] at h
      obtain ⟨rfl, rfl, h⟩ := h
      obtain ⟨rfl, rfl, rfl⟩ := Lexeme.tokens?_append_inj (by nofun) h
      exact ⟨rfl, rfl⟩
    | _ => cases hverb

/-- A predicate starts with a value. -/
theorem PredicateTree.exists_value (p : PredicateTree) :
    ∃ (v : ValueTree) (rest : List Token), p.tokens = v.token :: rest := by
  cases p with
  | comparison left sign right => exact ⟨left, _, rfl⟩
  | like field | membership field | range field | nullCheck field => exact ⟨.field field, _, rfl⟩

theorem PredicateTree.tokens_append_ne (p : PredicateTree) {t : Terminal} (ht : t ∉ values)
    (w : Lexeme t) (r r' : List Token) : p.tokens ++ r ≠ w.token :: r' := by
  obtain ⟨v, rest, hp⟩ := p.exists_value
  rw [hp]
  exact fun h => v.terminal_ne ht (congrArg Token.terminal (List.cons.inj h).1)

/-- What follows is no connective. -/
def EndsHere (r : List Token) : Prop := ∀ t ∈ r.head?, ∀ c : ConnectiveTree, c.token ≠ t

theorem endsHere_nil : EndsHere [] := by simp [EndsHere]

theorem endsHere_closing (w : Lexeme (.mark .parenClose)) (r : List Token) :
    EndsHere (w.token :: r) := by
  rintro t ht c rfl
  have hterminal := congrArg Token.terminal (Option.some.inj ht)
  cases c <;> cases hterminal

mutual
/-- What follows a term does not belong to it. -/
theorem TermTree.tokens_append_inj : ∀ (t t' : TermTree) {r r' : List Token},
    t.tokens ++ r = t'.tokens ++ r' → t = t' ∧ r = r'
  | .negation not t, .negation not' t', r, r', h => by
    obtain ⟨hnot, hrest⟩ := List.cons.inj h
    obtain rfl := Lexeme.token_inj.mp hnot
    obtain ⟨rfl, rfl⟩ := tokens_append_inj t t' hrest
    exact ⟨rfl, rfl⟩
  | .group opening head tail closing, .group opening' head' tail' closing', r, r', h => by
    simp only [tokens, List.cons_append, List.append_assoc, List.nil_append, List.cons.injEq,
      Lexeme.token_inj] at h
    obtain ⟨rfl, hhead⟩ := h
    obtain ⟨rfl, htail⟩ := tokens_append_inj head head' hhead
    obtain ⟨rfl, hend⟩ := tailTokens_append_inj tail tail' (endsHere_closing closing r)
      (endsHere_closing closing' r') htail
    obtain ⟨hclosing, rfl⟩ := List.cons.inj hend
    exact ⟨by rw [Lexeme.token_inj.mp hclosing], rfl⟩
  | .predicate p, .predicate p', r, r', h => by
    obtain ⟨rfl, rfl⟩ := PredicateTree.tokens_append_inj h
    exact ⟨rfl, rfl⟩
  | .negation .., .group .., _, _, h | .group .., .negation .., _, _, h => by
    cases congrArg Token.terminal (List.cons.inj h).1
  | .predicate p, .negation not _, _, _, h => absurd h (p.tokens_append_ne (by decide) not _ _)
  | .predicate p, .group opening .., _, _, h =>
    absurd h (p.tokens_append_ne (by decide) opening _ _)
  | .negation not _, .predicate p, _, _, h =>
    absurd h.symm (p.tokens_append_ne (by decide) not _ _)
  | .group opening .., .predicate p, _, _, h =>
    absurd h.symm (p.tokens_append_ne (by decide) opening _ _)

theorem TermTree.tailTokens_append_inj : ∀ (tail tail' : List (ConnectiveTree × TermTree))
    {r r' : List Token}, EndsHere r → EndsHere r' →
    tailTokens tail ++ r = tailTokens tail' ++ r' → tail = tail' ∧ r = r'
  | [], [], _, _, _, _, h => ⟨rfl, h⟩
  | (c, t) :: tail, (c', t') :: tail', r, r', hr, hr', h => by
    simp only [tailTokens, List.cons_append, List.append_assoc, List.cons.injEq,
      ConnectiveTree.token_inj] at h
    obtain ⟨rfl, hterm⟩ := h
    obtain ⟨rfl, htail⟩ := tokens_append_inj t t' hterm
    obtain ⟨rfl, rfl⟩ := tailTokens_append_inj tail tail' hr hr' htail
    exact ⟨rfl, rfl⟩
  | [], (c', t') :: tail', r, r', hr, _, h => by
    rw [tailTokens, List.nil_append] at h
    exact absurd rfl (hr c'.token (by rw [h]; rfl) c')
  | (c, t) :: tail, [], r, r', _, hr', h => by
    rw [tailTokens.eq_def [], List.nil_append] at h
    exact absurd rfl (hr' c.token (by rw [← h]; rfl) c)
end

/-- **One derivation.**  Two derivations of the same tokens are the same. -/
theorem ConditionTree.eq_of_tokens_eq {e e' : ConditionTree} (h : e.tokens = e'.tokens) :
    e = e' := by
  obtain ⟨hhead, hrest⟩ := TermTree.tokens_append_inj e.head e'.head h
  obtain ⟨htail, -⟩ := TermTree.tailTokens_append_inj e.tail e'.tail endsHere_nil endsHere_nil
    (by rwa [List.append_nil, List.append_nil])
  cases e
  cases e'
  exact congr (congrArg _ hhead) htail

/-! ### The `and` of a range -/

mutual
theorem TermTree.map_fst_marked : ∀ t : TermTree, t.marked.map Prod.fst = t.tokens
  | .negation not t => by rw [marked, List.map_cons, map_fst_marked t, tokens]
  | .group opening head tail closing => by
    simp [marked, tokens, map_fst_marked head, map_fst_tailMarked tail]
  | .predicate p => by simp [marked, tokens, Function.comp_def]

theorem TermTree.map_fst_tailMarked : ∀ tail : List (ConnectiveTree × TermTree),
    (tailMarked tail).map Prod.fst = tailTokens tail
  | [] => rfl
  | (c, t) :: rest => by
    simp [tailMarked, tailTokens, map_fst_marked t, map_fst_tailMarked rest]
end

/-- Two places behind every `between` stands an `and` that connects no terms. -/
def ClosesRanges (ms : List (Token × Bool)) : Prop :=
  ∀ i m, ms[i]? = some m → m.1.terminal = .keyword .between →
    ∃ t, ms[i + 2]? = some (t, false) ∧ t.terminal = .keyword .and

theorem closesRanges_of_forall_ne {ms : List (Token × Bool)}
    (h : ∀ m ∈ ms, m.1.terminal ≠ .keyword .between) : ClosesRanges ms :=
  fun _ m hm hbetween => absurd hbetween (h m (List.mem_of_getElem? hm))

theorem ClosesRanges.append {ms ns : List (Token × Bool)} (hms : ClosesRanges ms)
    (hns : ClosesRanges ns) : ClosesRanges (ms ++ ns) := by
  intro i m hm hbetween
  by_cases hi : i < ms.length
  · rw [List.getElem?_append_left hi] at hm
    obtain ⟨t, ht, hand⟩ := hms i m hm hbetween
    refine ⟨t, ?_, hand⟩
    rwa [List.getElem?_append_left (List.getElem?_eq_some_iff.mp ht).1]
  · have hle : ms.length ≤ i := Nat.le_of_not_lt hi
    rw [List.getElem?_append_right hle] at hm
    obtain ⟨t, ht, hand⟩ := hns _ m hm hbetween
    refine ⟨t, ?_, hand⟩
    rwa [List.getElem?_append_right (by omega), show i + 2 - ms.length = i - ms.length + 2 by omega]

theorem Lexeme.terminal_of_mem_tokens? {t : Terminal} {w : Option (Lexeme t)} {token : Token}
    (h : token ∈ tokens? w) : token.terminal = t := by
  obtain ⟨w, -, rfl⟩ := List.mem_map.mp h
  rfl

theorem RowTree.terminal_of_mem_tokens? {row : Option RowTree} {t : Token} (h : t ∈ tokens? row) :
    t.terminal ∈ Sql.values ∨ t.terminal = .mark .comma := by
  cases row with
  | none => cases h
  | some row =>
    rcases List.mem_cons.mp h with rfl | h
    · exact .inl row.first.terminal_mem
    · obtain ⟨e, -, he⟩ := List.mem_flatMap.mp h
      rcases List.mem_cons.mp he with rfl | he
      · exact .inr rfl
      · obtain rfl := List.mem_singleton.mp he
        exact .inl e.2.terminal_mem

theorem PredicateTree.closesRanges (p : PredicateTree) :
    ClosesRanges (p.tokens.map fun t => (t, false)) := by
  have hfield (f : FieldTree) : f.token.terminal ≠ .keyword .between :=
    (ValueTree.field f).terminal_ne (by decide)
  have hvalue (v : ValueTree) : v.token.terminal ≠ .keyword .between := v.terminal_ne (by decide)
  have hnot {not? : Option (Lexeme (.keyword .not))} :
      ∀ t ∈ Lexeme.tokens? not?, t.terminal ≠ .keyword .between := fun t ht => by
    rw [Lexeme.terminal_of_mem_tokens? ht]
    nofun
  cases p with
  | comparison left sign right =>
    refine closesRanges_of_forall_ne (List.forall_mem_map.mpr ?_)
    simp [tokens, hvalue]
  | like field not? word pattern =>
    refine closesRanges_of_forall_ne (List.forall_mem_map.mpr ?_)
    simpa [tokens, hfield, hvalue, or_imp, forall_and] using hnot
  | membership field not? isIn opening items closing =>
    have hitems : ∀ t ∈ RowTree.tokens? items, t.terminal ≠ .keyword .between := by
      rintro t ht hbetween
      rcases RowTree.terminal_of_mem_tokens? ht with hmem | hcomma
      · rw [hbetween] at hmem
        exact absurd hmem (by decide)
      · rw [hbetween] at hcomma
        cases hcomma
    refine closesRanges_of_forall_ne (List.forall_mem_map.mpr ?_)
    simpa [tokens, hfield, or_imp, forall_and] using And.intro hnot hitems
  | nullCheck field is not? null =>
    refine closesRanges_of_forall_ne (List.forall_mem_map.mpr ?_)
    simpa [tokens, hfield, or_imp, forall_and] using hnot
  | range field not? between low and high =>
    have hbefore : ClosesRanges ((field.token :: Lexeme.tokens? not?).map fun t => (t, false)) := by
      refine closesRanges_of_forall_ne (List.forall_mem_map.mpr ?_)
      simpa [hfield] using hnot
    have hrange : ClosesRanges
        ([between.token, low.token, and.token, high.token].map fun t => (t, false)) := by
      rintro (_ | i) m hm hbetween
      · exact ⟨and.token, rfl, rfl⟩
      · -- no other token is a `between`
        have hmem : m ∈ [low.token, and.token, high.token].map fun t => (t, false) :=
          List.mem_of_getElem? (i := i) (by simpa using hm)
        simp only [List.map_cons, List.map_nil, List.mem_cons, List.not_mem_nil, or_false] at hmem
        rcases hmem with rfl | rfl | rfl
        · exact absurd hbetween (hvalue low)
        · cases hbetween
        · exact absurd hbetween (hvalue high)
    simpa [tokens] using hbefore.append hrange

mutual
theorem TermTree.closesRanges : ∀ t : TermTree, ClosesRanges t.marked
  | .predicate p => p.closesRanges
  | .negation not t =>
    have hnot : ClosesRanges [(not.token, false)] :=
      closesRanges_of_forall_ne (by simp)
    hnot.append (closesRanges t)
  | .group opening head tail closing =>
    have hopening : ClosesRanges [(opening.token, false)] :=
      closesRanges_of_forall_ne (by simp)
    have hclosing : ClosesRanges [(closing.token, false)] :=
      closesRanges_of_forall_ne (by simp)
    hopening.append ((closesRanges head).append ((closesRanges_tail tail).append hclosing))

theorem TermTree.closesRanges_tail : ∀ tail : List (ConnectiveTree × TermTree),
    ClosesRanges (tailMarked tail)
  | [] => closesRanges_of_forall_ne (by simp [tailMarked])
  | (c, t) :: rest =>
    have hconnective : ClosesRanges [(c.token, true)] :=
      closesRanges_of_forall_ne (by cases c <;> simp [ConnectiveTree.token])
    hconnective.append ((closesRanges t).append (closesRanges_tail rest))
end

/-- **Ranges.**  The `and` of a range is no connective. -/
theorem ConditionTree.closesRanges (e : ConditionTree) : ClosesRanges e.marked :=
  (TermTree.closesRanges e.head).append (TermTree.closesRanges_tail e.tail)

theorem ConditionTree.map_fst_marked (e : ConditionTree) : e.marked.map Prod.fst = e.tokens := by
  rw [marked, List.map_append, TermTree.map_fst_marked, TermTree.map_fst_tailMarked, tokens]

end Sql
end RuleTree
