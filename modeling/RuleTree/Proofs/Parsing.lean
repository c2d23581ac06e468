import RuleTree.Proofs.Derivations
import RuleTree.Proofs.Scanning

/-! # Parsing SQL conditions

Going through the tokens of a derivation step by step ends with the formula of that derivation
(`ConditionTree.formula?_tokens`).  Conversely what has been read at any point is made of
derivations, complete ones and one that is half read (`Reads`), and every step keeps it so
(`Reads.step`), so a row of tokens with a formula is one that the grammar derives.
-/
namespace RuleTree
namespace Sql
open Source

/-! ### Formulas of derivations -/

def PredicateTree.predicate : PredicateTree → Predicate
  | .comparison left sign right => .comparison left.leaf sign.spelling right.leaf
  | .like field not? _ pattern => .like field.fieldName not?.isSome pattern.leaf
  | .membership field not? _ _ items _ =>
    .membership field.fieldName not?.isSome ((RowTree.values items).map ValueTree.leaf)
  | .range field not? _ low _ high => .range field.fieldName not?.isSome low.leaf high.leaf
  | .nullCheck field _ not? _ => .nullCheck field.fieldName not?.isSome

mutual
def TermTree.term : TermTree → Term Predicate
  | .negation _ t => .negation t.term
  | .group _ head tail _ => .group head.term (tailTerms tail)
  | .predicate p => .predicate p.predicate

def TermTree.tailTerms : List (ConnectiveTree × TermTree) → List (Junction × Term Predicate)
  | [] => []
  | (connective, t) :: rest => (connective.junction, t.term) :: tailTerms rest
end

def ConditionTree.formula (e : ConditionTree) : Formula Predicate :=
  ⟨e.head.term, TermTree.tailTerms e.tail⟩

theorem PredicateTree.predicateClause_predicate (p : PredicateTree) :
    predicateClause p.predicate = p.clause := by
  cases p with
  | membership field not? isIn opening items closing =>
    simp only [predicate, predicateClause, clause, List.map_map]
    rfl
  | _ => rfl

mutual
theorem TermTree.meaning_term : ∀ t : TermTree, meaning.term t.term = t.clause
  | .predicate p => p.predicateClause_predicate
  | .negation _ t => by
    rw [term, Meaning.term, clause, meaning_term t]
    rfl
  | .group _ head tail _ => by
    rw [term, Meaning.term, clause, meaning_term head]
    exact Result.bind_congr fun first _ => by rw [meaning_tailTerms tail]

theorem TermTree.meaning_tailTerms : ∀ tail : List (ConnectiveTree × TermTree),
    meaning.terms (tailTerms tail) = tailClauses tail
  | [] => rfl
  | (_, t) :: rest => by
    rw [tailTerms, Meaning.terms, tailClauses, meaning_term t]
    exact Result.bind_congr fun c _ => by rw [meaning_tailTerms rest]
end

/-- The meaning of a condition is the clause that its derivation describes. -/
theorem ConditionTree.meaning_formula (e : ConditionTree) :
    meaning.formula e.formula = e.clause := by
  rw [Meaning.formula, Meaning.term, clause, formula, TermTree.meaning_term]
  exact Result.bind_congr fun first _ => by rw [TermTree.meaning_tailTerms]

/-! ### Through the tokens of a derivation -/

@[simp] theorem ValueTree.leaf?_token (v : ValueTree) : v.token.leaf? = some v.leaf := by
  rcases v with f | v
  · cases f <;> rfl
  · cases v <;> rfl

theorem ValueTree.exists_of_leaf? {t : Token} {l : Leaf} (h : t.leaf? = some l) :
    ∃ v : ValueTree, v.token = t ∧ v.leaf = l := by
  obtain ⟨terminal, spelling⟩ := t
  unfold Token.leaf? at h
  dsimp only at h
  split at h
  · exact ⟨.field (.name ⟨spelling⟩), rfl, Option.some.inj h⟩
  · exact ⟨.field (.quotedName ⟨spelling⟩), rfl, Option.some.inj h⟩
  · exact ⟨.literal (.text ⟨spelling⟩), rfl, Option.some.inj h⟩
  · exact ⟨.literal (.number ⟨spelling⟩), rfl, Option.some.inj h⟩
  · exact ⟨.literal (.trueValue ⟨spelling⟩), rfl, Option.some.inj h⟩
  · exact ⟨.literal (.falseValue ⟨spelling⟩), rfl, Option.some.inj h⟩
  · exact ⟨.literal (.nullValue ⟨spelling⟩), rfl, Option.some.inj h⟩
  · cases h

section
variable {outer : List (Level Predicate)} {level : Level Predicate} {s : Partial}

/-- A step inside a predicate. -/
theorem step?_inside (t : Token) :
    (⟨outer, level, .inside s⟩ : Progress Partial Predicate).step? grammar t =
      (s.step? t).map (Progress.after outer level) := by
  show (s.step? t).map _ = _
  cases s.step? t with
  | none => rfl
  | some next => cases next <;> rfl

theorem formula?_inside {next : Step Partial Predicate} {t : Token} (h : s.step? t = some next)
    (ts : List Token) :
    (⟨outer, level, .inside s⟩ : Progress Partial Predicate).formula? grammar (t :: ts) =
      (Progress.after outer level next).formula? grammar ts :=
  Progress.formula?_cons (by rw [step?_inside, h]; rfl) ts

theorem step?_ahead_value (v : ValueTree) :
    (⟨outer, level, .ahead⟩ : Progress Partial Predicate).step? grammar v.token =
      some ⟨outer, level, .inside (.afterLeft v.leaf)⟩ := by
  have hnot : v.token.terminal ∉ grammar.negations := by
    rw [show grammar.negations = [.keyword .not] from rfl, List.mem_singleton]
    exact v.terminal_ne (by decide)
  have hparen : v.token.terminal ≠ .mark .parenOpen := v.terminal_ne (by decide)
  have hstart : grammar.start? v.token = some (.afterLeft v.leaf) := by
    show (v.token.leaf?).map _ = _
    rw [v.leaf?_token]
    rfl
  simp [Progress.step?, hnot, hparen, hstart]

/-- Values in a row are read up to the parenthesis behind them. -/
theorem formula?_row {field : FieldName} {negated : Bool} {before : List Leaf} {last : Leaf}
    (rest : List (Lexeme (.mark .comma) × ValueTree)) (closing : Lexeme (.mark .parenClose))
    (ts : List Token) :
    (⟨outer, level, .inside (.inList field negated (.item before last))⟩ :
      Progress Partial Predicate).formula? grammar
        (RowTree.restTokens rest ++ closing.token :: ts) =
      (Progress.complete outer level (.predicate (.membership field negated
        ((last :: before).reverse ++ rest.map (·.2.leaf))))).formula? grammar ts := by
  induction rest generalizing before last with
  | nil =>
    have hclosing : (Partial.inList field negated (.item before last)).step? closing.token =
        some (.done (.membership field negated (last :: before).reverse)) := rfl
    rw [List.map_nil, List.append_nil]
    exact formula?_inside hclosing ts
  | cons e rest ih =>
    obtain ⟨comma, v⟩ := e
    have hvalue : (Partial.inList field negated (.comma (last :: before))).step? v.token =
        some (.more (.inList field negated (.item (last :: before) v.leaf))) := by
      simp [Partial.step?, Items.step?]
    have hcomma : (Partial.inList field negated (.item before last)).step? comma.token =
        some (.more (.inList field negated (.comma (last :: before)))) := rfl
    calc _ = _ := formula?_inside hcomma _
      _ = _ := formula?_inside hvalue _
      _ = _ := ih
      _ = _ := by simp

/-- A list is read from behind its opening parenthesis. -/
theorem formula?_list {field : FieldName} {negated : Bool} (items : Option RowTree)
    (closing : Lexeme (.mark .parenClose)) (ts : List Token) :
    (⟨outer, level, .inside (.inList field negated .opened)⟩ :
      Progress Partial Predicate).formula? grammar
        (RowTree.tokens? items ++ [closing.token] ++ ts) =
      (Progress.complete outer level (.predicate (.membership field negated
        ((RowTree.values items).map ValueTree.leaf)))).formula? grammar ts := by
  cases items with
  | none =>
    have hclosing : (Partial.inList field negated .opened).step? closing.token =
        some (.done (.membership field negated [])) := rfl
    exact formula?_inside hclosing ts
  | some row =>
    have hfirst : (Partial.inList field negated .opened).step? row.first.token =
        some (.more (.inList field negated (.item [] row.first.leaf))) := by
      have hclosing : row.first.token.terminal ≠ .mark .parenClose :=
        row.first.terminal_ne (by decide)
      simp [Partial.step?, Items.step?, hclosing]
    have htokens : RowTree.tokens? (some row) ++ [closing.token] ++ ts =
        row.first.token :: (RowTree.restTokens row.rest ++ closing.token :: ts) := by
      simp [RowTree.tokens?, RowTree.tokens]
    calc _ = _ := congrArg _ htokens
      _ = _ := formula?_inside hfirst _
      _ = _ := formula?_row row.rest closing ts
      _ = _ := by simp [RowTree.values, Function.comp_def]

/-- A field is read up to the word that says what its predicate is. -/
theorem formula?_verb {field : FieldTree} (not? : Option (Lexeme (.keyword .not))) {k : Keyword}
    (w : Lexeme (.keyword k)) (h : Partial.ofKeyword? field.fieldName not?.isSome k = some s)
    (ts : List Token) :
    (⟨outer, level, .inside (.afterLeft (.field field.fieldName))⟩ :
      Progress Partial Predicate).formula? grammar (Lexeme.tokens? not? ++ w.token :: ts) =
      (⟨outer, level, .inside s⟩ : Progress Partial Predicate).formula? grammar ts := by
  cases not? with
  | none =>
    have hword : (Partial.afterLeft (.field field.fieldName)).step? w.token = some (.more s) := by
      cases k <;> cases h <;> rfl
    exact formula?_inside hword ts
  | some not =>
    have hnot : (Partial.afterLeft (.field field.fieldName)).step? not.token =
        some (.more (.afterNot field.fieldName)) := rfl
    have hword : (Partial.afterNot field.fieldName).step? w.token = some (.more s) := by
      cases k <;> cases h <;> rfl
    exact (formula?_inside hnot _).trans (formula?_inside hword ts)

/-- A predicate is read from its tokens. -/
theorem formula?_predicate (p : PredicateTree) (ts : List Token) :
    (⟨outer, level, .ahead⟩ : Progress Partial Predicate).formula? grammar (p.tokens ++ ts) =
      (Progress.complete outer level (.predicate p.predicate)).formula? grammar ts := by
  -- a value that completes what has been read
  have hvalue {s : Partial} {q : Predicate} (v : ValueTree)
      (h : s.step? v.token = some (.done q)) :
      (⟨outer, level, .inside s⟩ : Progress Partial Predicate).formula? grammar (v.token :: ts) =
        (Progress.complete outer level (.predicate q)).formula? grammar ts :=
    formula?_inside h ts
  have hfield (field : FieldTree) (rest : List Token) :
      (⟨outer, level, .ahead⟩ : Progress Partial Predicate).formula? grammar
          (field.token :: rest) =
        (⟨outer, level, .inside (.afterLeft (.field field.fieldName))⟩ :
          Progress Partial Predicate).formula? grammar rest :=
    Progress.formula?_cons (step?_ahead_value (.field field)) rest
  cases p with
  | comparison left sign right =>
    have hsign : (Partial.afterLeft left.leaf).step? sign.token =
        some (.more (.afterSign left.leaf sign.spelling)) := rfl
    calc _ = _ := Progress.formula?_cons (step?_ahead_value left) _
      _ = _ := formula?_inside hsign _
      _ = _ := hvalue right (by simp [Partial.step?, PredicateTree.predicate])
  | like field not? word pattern =>
    rw [PredicateTree.tokens, List.cons_append, List.append_assoc, hfield]
    calc _ = _ := formula?_verb not? word rfl _
      _ = _ := hvalue pattern (by simp [Partial.step?, PredicateTree.predicate])
  | membership field not? isIn opening items closing =>
    have hopening : (Partial.afterIn field.fieldName not?.isSome).step? opening.token =
        some (.more (.inList field.fieldName not?.isSome .opened)) := rfl
    rw [PredicateTree.tokens, List.cons_append, List.append_assoc, hfield]
    calc _ = _ := formula?_verb not? isIn rfl _
      _ = _ := formula?_inside hopening _
      _ = _ := formula?_list items closing ts
  | range field not? between low and high =>
    have hlow : (Partial.afterBetween field.fieldName not?.isSome).step? low.token =
        some (.more (.afterLow field.fieldName not?.isSome low.leaf)) := by
      simp [Partial.step?]
    have hand : (Partial.afterLow field.fieldName not?.isSome low.leaf).step? and.token =
        some (.more (.afterAnd field.fieldName not?.isSome low.leaf)) := rfl
    rw [PredicateTree.tokens, List.cons_append, List.append_assoc, hfield]
    calc _ = _ := formula?_verb not? between rfl _
      _ = _ := formula?_inside hlow _
      _ = _ := formula?_inside hand _
      _ = _ := hvalue high (by simp [Partial.step?, PredicateTree.predicate])
  | nullCheck field is not? null =>
    have his : (Partial.afterLeft (.field field.fieldName)).step? is.token =
        some (.more (.afterIs field.fieldName)) := rfl
    refine (hfield field _).trans ((formula?_inside his _).trans ?_)
    cases not? with
    | none =>
      have hnull : (Partial.afterIs field.fieldName).step? null.token =
          some (.done (.nullCheck field.fieldName false)) := rfl
      exact formula?_inside hnull ts
    | some not =>
      have hnot : (Partial.afterIs field.fieldName).step? not.token =
          some (.more (.afterIsNot field.fieldName)) := rfl
      have hnull : (Partial.afterIsNot field.fieldName).step? null.token =
          some (.done (.nullCheck field.fieldName true)) := rfl
      exact (formula?_inside hnot _).trans (formula?_inside hnull ts)

end

theorem step?_connective (c : ConnectiveTree) (outer : List (Level Predicate))
    (level : Level Predicate) (t : Term Predicate) :
    (⟨outer, level, .behind t⟩ : Progress Partial Predicate).step? grammar c.token =
      some ⟨outer, ⟨(t, c.junction) :: level.done, 0⟩, .ahead⟩ := by
  cases c <;> rfl

mutual
/-- A term is read from its tokens. -/
theorem formula?_term : ∀ (t : TermTree) (outer : List (Level Predicate))
    (level : Level Predicate) (ts : List Token),
    (⟨outer, level, .ahead⟩ : Progress Partial Predicate).formula? grammar (t.tokens ++ ts) =
      (Progress.complete outer level t.term).formula? grammar ts
  | .predicate p, outer, level, ts => formula?_predicate p ts
  | .negation not t, outer, level, ts => by
    have hnot : (⟨outer, level, .ahead⟩ : Progress Partial Predicate).step? grammar not.token =
        some ⟨outer, { level with negations := level.negations + 1 }, .ahead⟩ := rfl
    calc _ = _ := Progress.formula?_cons hnot _
      _ = _ := formula?_term t outer _ ts
      _ = _ := by rw [Progress.complete, Progress.complete, TermTree.term, negated_negation]
  | .group opening head tail closing, outer, level, ts => by
    have hopening : (⟨outer, level, .ahead⟩ : Progress Partial Predicate).step? grammar
        opening.token = some ⟨level :: outer, {}, .ahead⟩ := rfl
    have hclosing (done : List (Term Predicate × Junction)) (t : Term Predicate) :
        (⟨level :: outer, ⟨done, 0⟩, .behind t⟩ : Progress Partial Predicate).step? grammar
          closing.token = some (.complete outer level (.group (Formula.close done t []).head
            (Formula.close done t []).tail)) := rfl
    rw [TermTree.tokens, List.cons_append, List.append_assoc, List.append_assoc]
    obtain ⟨done, t, htail, hclose⟩ :=
      formula?_tail tail (level :: outer) [] head.term (closing.token :: ts)
    calc _ = _ := Progress.formula?_cons hopening _
      _ = _ := formula?_term head (level :: outer) {} _
      _ = _ := htail
      _ = _ := Progress.formula?_cons (hclosing done t) ts
      _ = _ := by rw [hclose]; rfl

/-- Terms with connectives before them are read from their tokens. -/
theorem formula?_tail : ∀ (tail : List (ConnectiveTree × TermTree))
    (outer : List (Level Predicate)) (done : List (Term Predicate × Junction))
    (t : Term Predicate) (ts : List Token), ∃ done' t',
    (⟨outer, ⟨done, 0⟩, .behind t⟩ : Progress Partial Predicate).formula? grammar
        (TermTree.tailTokens tail ++ ts) =
      (⟨outer, ⟨done', 0⟩, .behind t'⟩ : Progress Partial Predicate).formula? grammar ts ∧
    Formula.close done' t' [] = Formula.close done t (TermTree.tailTerms tail)
  | [], outer, done, t, ts => ⟨done, t, rfl, rfl⟩
  | (c, u) :: rest, outer, done, t, ts => by
    obtain ⟨done', t', hrest, hclose⟩ :=
      formula?_tail rest outer ((t, c.junction) :: done) u.term ts
    refine ⟨done', t', ?_, ?_⟩
    · rw [TermTree.tailTokens, List.cons_append, List.append_assoc]
      calc _ = _ := Progress.formula?_cons (step?_connective c outer ⟨done, 0⟩ t) _
        _ = _ := formula?_term u outer _ _
        _ = _ := hrest
    · rw [hclose, TermTree.tailTerms, Formula.close]
end

/-- **Completeness.**  The tokens of a derivation have the formula of that derivation. -/
theorem ConditionTree.formula?_tokens (e : ConditionTree) :
    grammar.formula? e.tokens = some e.formula := by
  obtain ⟨done, t, htail, hclose⟩ := formula?_tail e.tail [] [] e.head.term []
  calc grammar.formula? e.tokens
      = _ := formula?_term e.head [] {} (TermTree.tailTokens e.tail)
    _ = _ := by rw [← List.append_nil (TermTree.tailTokens e.tail)]; exact htail
    _ = some (Formula.close done t []) := rfl
    _ = some e.formula := by rw [hclose]; rfl

/-! ### What has been read -/

/-- The tokens of a row that is half read, behind its opening parenthesis. -/
inductive ItemsRead : Items → List Token → Prop where
  | opened : ItemsRead .opened []
  | item (row : RowTree) {before : List Leaf} {last : Leaf} :
      (last :: before).reverse = (RowTree.values (some row)).map ValueTree.leaf →
      ItemsRead (.item before last) row.tokens
  | comma (row : RowTree) {before : List Leaf} (w : Lexeme (.mark .comma)) :
      before.reverse = (RowTree.values (some row)).map ValueTree.leaf →
      ItemsRead (.comma before) (row.tokens ++ [w.token])

/-- The tokens of a predicate that is half read. -/
inductive PartialRead : Partial → List Token → Prop where
  | afterLeft (v : ValueTree) : PartialRead (.afterLeft v.leaf) [v.token]
  | afterSign (v : ValueTree) (sign : Lexeme .comparator) :
      PartialRead (.afterSign v.leaf sign.spelling) [v.token, sign.token]
  | afterNot (f : FieldTree) (w : Lexeme (.keyword .not)) :
      PartialRead (.afterNot f.fieldName) [f.token, w.token]
  | afterLike (f : FieldTree) (not? : Option (Lexeme (.keyword .not)))
      (word : Lexeme (.keyword .like)) :
      PartialRead (.afterLike f.fieldName not?.isSome)
        (f.token :: (Lexeme.tokens? not? ++ [word.token]))
  | afterIn (f : FieldTree) (not? : Option (Lexeme (.keyword .not)))
      (isIn : Lexeme (.keyword .isIn)) :
      PartialRead (.afterIn f.fieldName not?.isSome)
        (f.token :: (Lexeme.tokens? not? ++ [isIn.token]))
  | inList (f : FieldTree) (not? : Option (Lexeme (.keyword .not)))
      (isIn : Lexeme (.keyword .isIn)) (opening : Lexeme (.mark .parenOpen)) {items : Items}
      {ts : List Token} : ItemsRead items ts →
      PartialRead (.inList f.fieldName not?.isSome items)
        (f.token :: (Lexeme.tokens? not? ++ isIn.token :: opening.token :: ts))
  | afterBetween (f : FieldTree) (not? : Option (Lexeme (.keyword .not)))
      (between : Lexeme (.keyword .between)) :
      PartialRead (.afterBetween f.fieldName not?.isSome)
        (f.token :: (Lexeme.tokens? not? ++ [between.token]))
  | afterLow (f : FieldTree) (not? : Option (Lexeme (.keyword .not)))
      (between : Lexeme (.keyword .between)) (low : ValueTree) :
      PartialRead (.afterLow f.fieldName not?.isSome low.leaf)
        (f.token :: (Lexeme.tokens? not? ++ [between.token, low.token]))
  | afterAnd (f : FieldTree) (not? : Option (Lexeme (.keyword .not)))
      (between : Lexeme (.keyword .between)) (low : ValueTree) (and : Lexeme (.keyword .and)) :
      PartialRead (.afterAnd f.fieldName not?.isSome low.leaf)
        (f.token :: (Lexeme.tokens? not? ++ [between.token, low.token, and.token]))
  | afterIs (f : FieldTree) (is : Lexeme (.keyword .is)) :
      PartialRead (.afterIs f.fieldName) [f.token, is.token]
  | afterIsNot (f : FieldTree) (is : Lexeme (.keyword .is)) (not : Lexeme (.keyword .not)) :
      PartialRead (.afterIsNot f.fieldName) [f.token, is.token, not.token]

/-- What a step of a predicate leaves: one that is half read, or a derivation. -/
def StepRead (ts : List Token) : Step Partial Predicate → Prop
  | .more s => PartialRead s ts
  | .done p => ∃ d : PredicateTree, d.predicate = p ∧ d.tokens = ts

/-- A token of a terminal is an occurrence of it. -/
theorem Lexeme.exists_token {t : Token} {terminal : Terminal} (h : t.terminal = terminal) :
    ∃ w : Lexeme terminal, w.token = t := by
  subst h
  exact ⟨⟨t.spelling⟩, rfl⟩

theorem FieldTree.exists_of_leaf {v : ValueTree} {f : FieldName} (h : v.leaf = .field f) :
    ∃ field : FieldTree, v = .field field ∧ field.fieldName = f := by
  rcases v with field | v
  · exact ⟨field, rfl, Leaf.field.inj h⟩
  · cases v <;> cases h

/-- A word behind a field, with or without `not` between them. -/
theorem PartialRead.ofKeyword? {f : FieldTree} (not? : Option (Lexeme (.keyword .not)))
    {k : Keyword} (w : Lexeme (.keyword k)) {s : Partial}
    (h : Partial.ofKeyword? f.fieldName not?.isSome k = some s) :
    PartialRead s (f.token :: (Lexeme.tokens? not? ++ [w.token])) := by
  unfold Partial.ofKeyword? at h
  split at h
  · exact Option.some.inj h ▸ .afterLike f not? w
  · exact Option.some.inj h ▸ .afterIn f not? w
  · exact Option.some.inj h ▸ .afterBetween f not? w
  · cases h

/-- A token behind the first value. -/
theorem PartialRead.afterLeft? {v : ValueTree} {t : Token} {s : Partial}
    (h : Partial.afterLeft? v.leaf t = some s) : PartialRead s [v.token, t] := by
  unfold Partial.afterLeft? at h
  split at h
  · rename_i hsign
    obtain ⟨sign, rfl⟩ := Lexeme.exists_token hsign
    exact Option.some.inj h ▸ .afterSign v sign
  · rename_i f hnot hleaf
    obtain ⟨field, rfl, rfl⟩ := FieldTree.exists_of_leaf hleaf
    obtain ⟨not, rfl⟩ := Lexeme.exists_token hnot
    exact Option.some.inj h ▸ .afterNot field not
  · rename_i f his hleaf
    obtain ⟨field, rfl, rfl⟩ := FieldTree.exists_of_leaf hleaf
    obtain ⟨is, rfl⟩ := Lexeme.exists_token his
    exact Option.some.inj h ▸ .afterIs field is
  · rename_i k f _ _ hword hleaf
    obtain ⟨field, rfl, rfl⟩ := FieldTree.exists_of_leaf hleaf
    obtain ⟨w, rfl⟩ := Lexeme.exists_token hword
    exact .ofKeyword? none w h
  · cases h

/-- A value behind which nothing of the predicate is missing, or something is. -/
theorem StepRead.value {f : Leaf → Step Partial Predicate} {ts : List Token} {t : Token}
    {next : Step Partial Predicate} (hstep : t.leaf?.map f = some next)
    (hread : ∀ v : ValueTree, StepRead (ts ++ [v.token]) (f v.leaf)) :
    StepRead (ts ++ [t]) next := by
  obtain ⟨l, hleaf, rfl⟩ := Option.map_eq_some_iff.mp hstep
  obtain ⟨v, rfl, rfl⟩ := ValueTree.exists_of_leaf? hleaf
  exact hread v

/-- The next value of a row. -/
def RowTree.push (row : RowTree) (comma : Lexeme (.mark .comma)) (v : ValueTree) : RowTree :=
  ⟨row.first, row.rest ++ [(comma, v)]⟩

theorem RowTree.tokens_push (row : RowTree) (comma : Lexeme (.mark .comma)) (v : ValueTree) :
    (row.push comma v).tokens = row.tokens ++ [comma.token, v.token] := by
  simp [push, tokens, restTokens]

/-- What a step of a row leaves: one that is half read, or a whole one. -/
theorem ItemsRead.step {items : Items} {ts : List Token} (h : ItemsRead items ts) {t : Token}
    {next : Step Items (List Leaf)} (hstep : items.step? .parenClose t = some next) :
    match next with
    | .more items => ItemsRead items (ts ++ [t])
    | .done vs => ∃ (row : Option RowTree) (closing : Lexeme (.mark .parenClose)),
      vs = (RowTree.values row).map ValueTree.leaf ∧
        ts ++ [t] = RowTree.tokens? row ++ [closing.token] := by
  cases h with
  | opened =>
    rw [Items.step?] at hstep
    split at hstep
    · rename_i hclosing
      obtain ⟨closing, rfl⟩ := Lexeme.exists_token hclosing
      obtain rfl := Option.some.inj hstep
      exact ⟨none, closing, rfl, rfl⟩
    · obtain ⟨l, hleaf, rfl⟩ := Option.map_eq_some_iff.mp hstep
      obtain ⟨v, rfl, rfl⟩ := ValueTree.exists_of_leaf? hleaf
      exact .item ⟨v, []⟩ rfl
  | @item row before last hvalues =>
    rw [Items.step?] at hstep
    split at hstep
    · rename_i hclosing
      obtain ⟨closing, rfl⟩ := Lexeme.exists_token hclosing
      obtain rfl := Option.some.inj hstep
      exact ⟨some row, closing, hvalues, rfl⟩
    split at hstep
    · rename_i hcomma
      obtain ⟨comma, rfl⟩ := Lexeme.exists_token hcomma
      obtain rfl := Option.some.inj hstep
      exact .comma row comma hvalues
    · cases hstep
  | @comma row before comma hvalues =>
    obtain ⟨l, hleaf, rfl⟩ := Option.map_eq_some_iff.mp hstep
    obtain ⟨v, rfl, rfl⟩ := ValueTree.exists_of_leaf? hleaf
    have htokens : row.tokens ++ [comma.token] ++ [v.token] = (row.push comma v).tokens := by
      rw [RowTree.tokens_push, List.append_assoc]
      rfl
    rw [htokens]
    refine .item (row.push comma v) ?_
    rw [List.reverse_cons, hvalues]
    simp [RowTree.values, RowTree.push]

/-- A step of a predicate reads one more token of it. -/
theorem PartialRead.step {s : Partial} {ts : List Token} (h : PartialRead s ts) {t : Token}
    {next : Step Partial Predicate} (hstep : s.step? t = some next) :
    StepRead (ts ++ [t]) next := by
  cases h with
  | afterLeft v =>
    obtain ⟨s, hs, rfl⟩ := Option.map_eq_some_iff.mp hstep
    exact PartialRead.afterLeft? hs
  | afterSign v sign => exact StepRead.value hstep fun w => ⟨.comparison v sign w, rfl, rfl⟩
  | afterNot f not =>
    rw [Partial.step?] at hstep
    split at hstep
    · rename_i k hword
      obtain ⟨s, hs, rfl⟩ := Option.map_eq_some_iff.mp hstep
      obtain ⟨w, rfl⟩ := Lexeme.exists_token hword
      exact .ofKeyword? (some not) w hs
    · cases hstep
  | afterLike f not? word =>
    refine StepRead.value hstep fun v => ⟨.like f not? word v, rfl, ?_⟩
    simp [PredicateTree.tokens]
  | afterIn f not? isIn =>
    obtain ⟨hopening, hnext⟩ := Option.ite_none_right_eq_some.mp hstep
    obtain ⟨opening, rfl⟩ := Lexeme.exists_token hopening
    obtain rfl := Option.some.inj hnext
    simpa [StepRead] using PartialRead.inList f not? isIn opening .opened
  | @inList f not? isIn opening items us hitems =>
    obtain ⟨next, hnext, rfl⟩ := Option.map_eq_some_iff.mp hstep
    have hread := hitems.step hnext
    cases next with
    | more items => simpa [StepRead] using PartialRead.inList f not? isIn opening hread
    | done vs =>
      obtain ⟨row, closing, rfl, hus⟩ := hread
      refine ⟨.membership f not? isIn opening row closing, rfl, ?_⟩
      simp [PredicateTree.tokens, ← hus]
  | afterBetween f not? between =>
    refine StepRead.value hstep fun v => ?_
    simpa [StepRead] using PartialRead.afterLow f not? between v
  | afterLow f not? between low =>
    obtain ⟨hand, hnext⟩ := Option.ite_none_right_eq_some.mp hstep
    obtain ⟨and, rfl⟩ := Lexeme.exists_token hand
    obtain rfl := Option.some.inj hnext
    simpa [StepRead] using PartialRead.afterAnd f not? between low and
  | afterAnd f not? between low and =>
    refine StepRead.value hstep fun v => ⟨.range f not? between low and v, rfl, ?_⟩
    simp [PredicateTree.tokens]
  | afterIs f is =>
    rw [Partial.step?] at hstep
    split at hstep
    · rename_i hnot
      obtain ⟨not, rfl⟩ := Lexeme.exists_token hnot
      exact Option.some.inj hstep ▸ .afterIsNot f is not
    · rename_i hnull
      obtain ⟨null, rfl⟩ := Lexeme.exists_token hnull
      exact Option.some.inj hstep ▸ ⟨.nullCheck f is none null, rfl, rfl⟩
    · cases hstep
  | afterIsNot f is not =>
    obtain ⟨hnull, hnext⟩ := Option.ite_none_right_eq_some.mp hstep
    obtain ⟨null, rfl⟩ := Lexeme.exists_token hnull
    exact Option.some.inj hnext ▸ ⟨.nullCheck f is (some not) null, rfl, rfl⟩

/-- A group that is open: its terms so far, each with the connective behind it, and the `not`
words before the term to come, the last ones first. -/
structure OpenTree where
  done : List (TermTree × ConnectiveTree) := []
  nots : List (Lexeme (.keyword .not)) := []

namespace OpenTree

def level (o : OpenTree) : Level Predicate :=
  ⟨o.done.map fun e => (e.1.term, e.2.junction), o.nots.length⟩

/-- The tokens of the terms. -/
def doneTokens (done : List (TermTree × ConnectiveTree)) : List Token :=
  done.reverse.flatMap fun e => e.1.tokens ++ [e.2.token]

def tokens (o : OpenTree) : List Token := doneTokens o.done ++ o.nots.reverse.map Lexeme.token

/-- The tokens of open groups, the innermost first, each with the parenthesis behind it. -/
def outerTokens : List (OpenTree × Lexeme (.mark .parenOpen)) → List Token
  | [] => []
  | (o, opening) :: outer => outerTokens outer ++ (o.tokens ++ [opening.token])

end OpenTree

/-- The levels of open groups. -/
def outerLevels (outer : List (OpenTree × Lexeme (.mark .parenOpen))) : List (Level Predicate) :=
  outer.map (·.1.level)

open OpenTree in
/-- The tokens that have been read where reading stands. -/
inductive Reads : Progress Partial Predicate → List Token → Prop where
  | ahead (outer : List (OpenTree × Lexeme (.mark .parenOpen))) (o : OpenTree) :
      Reads ⟨outerLevels outer, o.level, .ahead⟩ (outerTokens outer ++ o.tokens)
  | inside (outer : List (OpenTree × Lexeme (.mark .parenOpen))) (o : OpenTree) {s : Partial}
      {ts : List Token} : PartialRead s ts →
      Reads ⟨outerLevels outer, o.level, .inside s⟩ (outerTokens outer ++ o.tokens ++ ts)
  | behind (outer : List (OpenTree × Lexeme (.mark .parenOpen)))
      (done : List (TermTree × ConnectiveTree)) (t : TermTree) :
      Reads ⟨outerLevels outer, OpenTree.level ⟨done, []⟩, .behind t.term⟩
        (outerTokens outer ++ doneTokens done ++ t.tokens)

/-- A term behind `not` words, the last one first. -/
def TermTree.negated : List (Lexeme (.keyword .not)) → TermTree → TermTree
  | [], t => t
  | not :: nots, t => negated nots (.negation not t)

theorem TermTree.term_negated (nots : List (Lexeme (.keyword .not))) (t : TermTree) :
    (t.negated nots).term = Term.negated nots.length t.term := by
  induction nots generalizing t with
  | nil => rfl
  | cons not nots ih =>
    rw [TermTree.negated, ih, TermTree.term, negated_negation, List.length_cons]

theorem TermTree.tokens_negated (nots : List (Lexeme (.keyword .not))) (t : TermTree) :
    (t.negated nots).tokens = nots.reverse.map Lexeme.token ++ t.tokens := by
  induction nots generalizing t with
  | nil => rfl
  | cons not nots ih =>
    rw [TermTree.negated, ih, TermTree.tokens]
    simp

/-- The condition of terms in reverse, each with the connective behind it, and of what follows
them. -/
def ConditionTree.close : List (TermTree × ConnectiveTree) → TermTree →
    List (ConnectiveTree × TermTree) → ConditionTree
  | [], head, tail => ⟨head, tail⟩
  | (t, connective) :: rest, head, tail => close rest t ((connective, head) :: tail)

theorem ConditionTree.formula_close (done : List (TermTree × ConnectiveTree)) (head : TermTree)
    (tail : List (ConnectiveTree × TermTree)) :
    (close done head tail).formula =
      Formula.close (done.map fun e => (e.1.term, e.2.junction)) head.term
        (TermTree.tailTerms tail) := by
  induction done generalizing head tail with
  | nil => rfl
  | cons e done ih =>
    obtain ⟨t, connective⟩ := e
    rw [close, ih, List.map_cons, Formula.close, TermTree.tailTerms]

theorem ConditionTree.tokens_close (done : List (TermTree × ConnectiveTree)) (head : TermTree)
    (tail : List (ConnectiveTree × TermTree)) :
    (close done head tail).tokens =
      OpenTree.doneTokens done ++ (head.tokens ++ TermTree.tailTokens tail) := by
  induction done generalizing head tail with
  | nil => rfl
  | cons e done ih =>
    obtain ⟨t, connective⟩ := e
    rw [close, ih, TermTree.tailTokens]
    simp [OpenTree.doneTokens]

/-- A term that is complete takes the `not` words before it. -/
theorem Reads.complete (outer : List (OpenTree × Lexeme (.mark .parenOpen))) (o : OpenTree)
    (t : TermTree) :
    Reads (.complete (outerLevels outer) o.level t.term)
      (OpenTree.outerTokens outer ++ o.tokens ++ t.tokens) := by
  have hbehind := Reads.behind outer o.done (t.negated o.nots)
  rw [TermTree.term_negated, TermTree.tokens_negated] at hbehind
  rw [OpenTree.tokens, List.append_assoc, List.append_assoc]
  rwa [List.append_assoc] at hbehind

theorem ConnectiveTree.exists_of_junction? {t : Token} {j : Junction}
    (h : grammar.junction? t.terminal = some j) :
    ∃ c : ConnectiveTree, c.token = t ∧ c.junction = j := by
  obtain ⟨terminal, spelling⟩ := t
  unfold grammar at h
  dsimp only at h
  split at h
  · exact ⟨.and ⟨spelling⟩, rfl, Option.some.inj h⟩
  · exact ⟨.or ⟨spelling⟩, rfl, Option.some.inj h⟩
  · cases h

/-- A parenthesis closes the group that its terms have been read of. -/
theorem Reads.closing (outer : List (OpenTree × Lexeme (.mark .parenOpen))) (o : OpenTree)
    (opening : Lexeme (.mark .parenOpen)) (done : List (TermTree × ConnectiveTree)) (t : TermTree)
    (closing : Lexeme (.mark .parenClose)) :
    Reads (.complete (outerLevels outer) o.level (.group
        (Formula.close (OpenTree.level ⟨done, []⟩).done t.term []).head
        (Formula.close (OpenTree.level ⟨done, []⟩).done t.term []).tail))
      (OpenTree.outerTokens ((o, opening) :: outer) ++ OpenTree.doneTokens done ++ t.tokens ++
        [closing.token]) := by
  have hformula : (ConditionTree.close done t []).formula =
      Formula.close (OpenTree.level ⟨done, []⟩).done t.term [] :=
    ConditionTree.formula_close done t []
  have htokens := ConditionTree.tokens_close done t []
  generalize ConditionTree.close done t [] = e at hformula htokens
  have hgroup : (TermTree.group opening e.head e.tail closing).tokens =
      opening.token :: (e.tokens ++ [closing.token]) := by
    simp [TermTree.tokens, ConditionTree.tokens]
  have hall : OpenTree.outerTokens ((o, opening) :: outer) ++ OpenTree.doneTokens done ++
      t.tokens ++ [closing.token] = OpenTree.outerTokens outer ++ o.tokens ++
        (opening.token :: (e.tokens ++ [closing.token])) := by
    rw [htokens]
    simp [OpenTree.outerTokens, TermTree.tailTokens]
  rw [hall, ← hgroup, ← hformula]
  exact Reads.complete outer o (.group opening e.head e.tail closing)

/-- **Steps.**  Every step reads one more token. -/
theorem Reads.step {progress next : Progress Partial Predicate} {ts : List Token}
    (h : Reads progress ts) {t : Token} (hstep : progress.step? grammar t = some next) :
    Reads next (ts ++ [t]) := by
  cases h with
  | ahead outer o =>
    rw [Progress.step?] at hstep
    split at hstep
    · rename_i hnot
      obtain ⟨not, rfl⟩ := Lexeme.exists_token (List.mem_singleton.mp hnot)
      obtain rfl := Option.some.inj hstep
      have hread := Reads.ahead outer ⟨o.done, not :: o.nots⟩
      simpa [OpenTree.tokens, OpenTree.level] using hread
    split at hstep
    · rename_i hopening
      obtain ⟨opening, rfl⟩ := Lexeme.exists_token hopening
      obtain rfl := Option.some.inj hstep
      have hread : Reads ⟨o.level :: outerLevels outer, {}, .ahead⟩
          (OpenTree.outerTokens ((o, opening) :: outer) ++ OpenTree.tokens {}) :=
        .ahead ((o, opening) :: outer) {}
      simpa [OpenTree.outerTokens, OpenTree.tokens, OpenTree.doneTokens] using hread
    · obtain ⟨s, hs, rfl⟩ := Option.map_eq_some_iff.mp hstep
      obtain ⟨l, hleaf, rfl⟩ := Option.map_eq_some_iff.mp hs
      obtain ⟨v, rfl, rfl⟩ := ValueTree.exists_of_leaf? hleaf
      exact .inside outer o (.afterLeft v)
  | @inside outer o s us hpartial =>
    rw [step?_inside] at hstep
    obtain ⟨made, hmade, rfl⟩ := Option.map_eq_some_iff.mp hstep
    have hread := hpartial.step hmade
    rw [List.append_assoc]
    cases made with
    | more s => exact .inside outer o hread
    | done p =>
      obtain ⟨d, rfl, htokens⟩ := hread
      rw [← htokens]
      exact .complete outer o (.predicate d)
  | behind outer done t =>
    unfold Progress.step? at hstep
    dsimp only at hstep
    split at hstep
    · rename_i j hj
      obtain ⟨c, rfl, rfl⟩ := ConnectiveTree.exists_of_junction? hj
      obtain rfl := Option.some.inj hstep
      have hread := Reads.ahead outer ⟨(t, c) :: done, []⟩
      simpa [OpenTree.tokens, OpenTree.doneTokens, OpenTree.level] using hread
    split at hstep
    · rename_i hclosing
      obtain ⟨closing, rfl⟩ := Lexeme.exists_token hclosing
      cases outer with
      | nil => cases hstep
      | cons e outer =>
        obtain ⟨o, opening⟩ := e
        obtain rfl := Option.some.inj hstep
        exact Reads.closing outer o opening done t closing
    · cases hstep

/-- What has been read behind a row of tokens. -/
theorem Reads.run {progress next : Progress Partial Predicate} {ts us : List Token}
    (h : Reads progress ts) (hrun : us.foldlM (Progress.step? grammar) progress = some next) :
    Reads next (ts ++ us) := by
  induction us generalizing progress ts with
  | nil => simpa [← Option.some.inj hrun] using h
  | cons t us ih =>
    rw [List.foldlM_cons] at hrun
    obtain ⟨middle, hstep, hrest⟩ := Option.bind_eq_some_iff.mp hrun
    simpa using ih (h.step hstep) hrest

/-- **Soundness.**  A row of tokens with a formula is that of a derivation with this formula. -/
theorem ConditionTree.exists_of_formula? {ts : List Token} {f : Formula Predicate}
    (h : grammar.formula? ts = some f) : ∃ e : ConditionTree, e.tokens = ts ∧ e.formula = f := by
  obtain ⟨last, hrun, hfinish⟩ := Option.bind_eq_some_iff.mp h
  have hread : Reads last ts := (Reads.ahead [] {}).run hrun
  cases hread with
  | ahead | inside => cases hfinish
  | behind outer done t =>
    cases outer with
    | cons => cases hfinish
    | nil =>
      refine ⟨.close done t [], ?_, ?_⟩
      · rw [ConditionTree.tokens_close]
        simp [OpenTree.outerTokens, TermTree.tailTokens]
      · rw [ConditionTree.formula_close]
        exact Option.some.inj hfinish

/-! ### What is looked for -/

/-- A value is looked for wherever one is read. -/
theorem mem_values_of_leaf? {A : Type} {t : Token} {f : Leaf → A} {a : A}
    (h : t.leaf?.map f = some a) : t.terminal ∈ values := by
  obtain ⟨l, hleaf, -⟩ := Option.map_eq_some_iff.mp h
  obtain ⟨v, rfl, -⟩ := ValueTree.exists_of_leaf? hleaf
  exact v.terminal_mem

/-- Three words say what the predicate of a field is. -/
theorem mem_verbs_of_ofKeyword? {f : FieldName} {negated : Bool} {k : Keyword} {s : Partial}
    (h : Partial.ofKeyword? f negated k = some s) : k ∈ [.like, .isIn, .between] := by
  unfold Partial.ofKeyword? at h
  split at h
  · simp
  · simp
  · simp
  · cases h

theorem mem_behindLeaf_of_afterLeft? {v : Leaf} {t : Token} {s : Partial}
    (h : Partial.afterLeft? v t = some s) : t.terminal ∈ behindLeaf v := by
  unfold Partial.afterLeft? at h
  split at h
  · rename_i left _ _ hsign
    cases left <;> simp [behindLeaf, hsign]
  · rename_i hnot
    simp [behindLeaf, hnot]
  · rename_i his
    simp [behindLeaf, his]
  · rename_i hword
    have hverb := mem_verbs_of_ofKeyword? h
    simp only [List.mem_cons, List.not_mem_nil, or_false] at hverb
    rcases hverb with rfl | rfl | rfl <;> simp [behindLeaf, hword]
  · cases h

theorem mem_inList_of_step? {items : Items} {t : Token} {next : Step Items (List Leaf)}
    (h : items.step? .parenClose t = some next) : t.terminal ∈ inList items := by
  cases items with
  | opened =>
    rw [Items.step?] at h
    split at h
    · rename_i hclosing
      simp [inList, hclosing]
    · exact List.mem_cons_of_mem _ (mem_values_of_leaf? h)
  | item before last =>
    rw [Items.step?] at h
    split at h
    · rename_i hclosing
      cases last <;> simp [inList, behindLeaf, hclosing]
    · obtain ⟨hcomma, -⟩ := Option.ite_none_right_eq_some.mp h
      cases last <;> simp [inList, behindLeaf, hcomma]
  | comma before => exact mem_values_of_leaf? h

/-- What a step of a predicate takes is looked for there. -/
theorem mem_insidePredicate_of_step? {s : Partial} {t : Token} {next : Step Partial Predicate}
    (h : s.step? t = some next) : t.terminal ∈ insidePredicate s := by
  cases s with
  | afterLeft v =>
    obtain ⟨s, hs, -⟩ := Option.map_eq_some_iff.mp h
    exact mem_behindLeaf_of_afterLeft? hs
  | afterSign | afterLike | afterBetween | afterAnd => exact mem_values_of_leaf? h
  | afterNot field =>
    rw [Partial.step?] at h
    split at h
    · rename_i hword
      obtain ⟨s, hs, -⟩ := Option.map_eq_some_iff.mp h
      simpa [insidePredicate, hword] using mem_verbs_of_ofKeyword? hs
    · cases h
  | afterIn field negated =>
    obtain ⟨hopening, -⟩ := Option.ite_none_right_eq_some.mp h
    simp [insidePredicate, hopening]
  | inList field negated items =>
    obtain ⟨made, hmade, -⟩ := Option.map_eq_some_iff.mp h
    exact mem_inList_of_step? hmade
  | afterLow field negated low =>
    obtain ⟨hand, -⟩ := Option.ite_none_right_eq_some.mp h
    cases low <;> simp [insidePredicate, behindLeaf, hand]
  | afterIs field =>
    rw [Partial.step?] at h
    split at h
    · rename_i hnot
      simp [insidePredicate, hnot]
    · rename_i hnull
      simp [insidePredicate, hnull]
    · cases h
  | afterIsNot field =>
    obtain ⟨hnull, -⟩ := Option.ite_none_right_eq_some.mp h
    simp [insidePredicate, hnull]

/-- A connective and a closing parenthesis are looked for behind every term. -/
theorem mem_wanted_behind {terminal : Terminal} (h : terminal ∈ behindTerm)
    (outer : List (Level Predicate)) (level : Level Predicate) (t : Term Predicate) :
    terminal ∈ (⟨outer, level, .behind t⟩ : Progress Partial Predicate).wanted grammar := by
  have hleaf (v : Leaf) : terminal ∈ behindLeaf v := by
    simp only [behindTerm, List.mem_cons, List.not_mem_nil, or_false] at h
    rcases h with rfl | rfl | rfl <;> cases v <;> simp [behindLeaf]
  unfold Progress.wanted
  dsimp only
  split
  · rename_i p _
    cases p <;> first | exact hleaf _ | exact h
  · exact h

/-- What a step takes is looked for where it is taken. -/
theorem mem_wanted_of_step? {progress next : Progress Partial Predicate} {t : Token}
    (h : progress.step? grammar t = some next) : t.terminal ∈ progress.wanted grammar := by
  obtain ⟨outer, level, position⟩ := progress
  cases position with
  | ahead =>
    rw [Progress.step?] at h
    split at h
    · rename_i hnot
      rw [List.mem_singleton.mp hnot]
      exact List.mem_cons_self
    split at h
    · rename_i hopening
      rw [hopening]
      exact List.mem_cons_of_mem _ List.mem_cons_self
    · obtain ⟨s, hs, -⟩ := Option.map_eq_some_iff.mp h
      obtain ⟨l, hleaf, -⟩ := Option.map_eq_some_iff.mp hs
      obtain ⟨v, rfl, -⟩ := ValueTree.exists_of_leaf? hleaf
      exact List.mem_cons_of_mem _ (List.mem_cons_of_mem _ v.terminal_mem)
  | inside s =>
    rw [step?_inside] at h
    obtain ⟨made, hmade, -⟩ := Option.map_eq_some_iff.mp h
    exact mem_insidePredicate_of_step? hmade
  | behind u =>
    refine mem_wanted_behind ?_ outer level u
    unfold Progress.step? at h
    dsimp only at h
    split at h
    · rename_i j hj
      obtain ⟨c, rfl, -⟩ := ConnectiveTree.exists_of_junction? hj
      cases c <;> simp [behindTerm, ConnectiveTree.token]
    split at h
    · rename_i hclosing
      simp [behindTerm, hclosing]
    · cases h

/-! ### Conditions -/

/-- **Conditions.**  A row of tokens is a condition exactly if the grammar derives it; there
is then only one derivation of it, and its clause is the one that this derivation describes, in
which the `and` of a range connects no terms.  Each of its tokens is looked for in its place.
The texts that are read are those whose tokens are derived. -/
theorem derivations_of_conditions :
    (∀ tokens : List Token,
      (∃ f, grammar.formula? tokens = some f) ↔ ∃! e : ConditionTree, e.tokens = tokens) ∧
    (∀ e : ConditionTree,
      (grammar.formula? e.tokens).map meaning.formula = some e.clause ∧
      (e.marked.map Prod.fst = e.tokens ∧ ClosesRanges e.marked) ∧
      ∀ before t after, e.tokens = before ++ t :: after →
        ∃ progress, before.foldlM (Progress.step? grammar) {} = some progress ∧
          t.terminal ∈ progress.wanted grammar) ∧
    ∀ (source : List Char) (f : Formula Predicate),
      readFormula grammar .sql source = .ok f ↔
        ∃ e : ConditionTree, Scans grammar {} source e.tokens ∧ e.formula = f := by
  refine ⟨fun tokens => ⟨?_, ?_⟩, fun e => ⟨?_, ⟨e.map_fst_marked, e.closesRanges⟩, ?_⟩, ?_⟩
  · rintro ⟨f, hf⟩
    obtain ⟨e, rfl, -⟩ := ConditionTree.exists_of_formula? hf
    exact ⟨e, rfl, fun e' he' => ConditionTree.eq_of_tokens_eq he'⟩
  · rintro ⟨e, rfl, -⟩
    exact ⟨e.formula, e.formula?_tokens⟩
  · rw [e.formula?_tokens, Option.map_some, e.meaning_formula]
  · rintro before t after htokens
    have hformula := e.formula?_tokens
    rw [htokens, Grammar.formula?, List.foldlM_append] at hformula
    obtain ⟨last, hrun, -⟩ := Option.bind_eq_some_iff.mp hformula
    obtain ⟨progress, hbefore, hrest⟩ := Option.bind_eq_some_iff.mp hrun
    rw [List.foldlM_cons] at hrest
    obtain ⟨next, hstep, -⟩ := Option.bind_eq_some_iff.mp hrest
    exact ⟨progress, hbefore, mem_wanted_of_step? hstep⟩
  · rintro source f
    rw [readFormula_eq_ok_iff]
    constructor
    · rintro ⟨tokens, hscans, hf⟩
      obtain ⟨e, rfl, rfl⟩ := ConditionTree.exists_of_formula? hf
      exact ⟨e, hscans, rfl⟩
    · rintro ⟨e, hscans, rfl⟩
      exact ⟨e.tokens, hscans, e.formula?_tokens⟩

/-- `not a between 'x' and b and c is null` -/
def negatedRange : ConditionTree where
  head := .negation ⟨"not".toList⟩ (.predicate (.range (.name ⟨"a".toList⟩) none
    ⟨"between".toList⟩ (.literal (.text ⟨"'x'".toList⟩)) ⟨"and".toList⟩
    (.field (.name ⟨"b".toList⟩))))
  tail := [(.and ⟨"and".toList⟩, .predicate (.nullCheck (.name ⟨"c".toList⟩) ⟨"is".toList⟩ none
    ⟨"null".toList⟩))]

/-- The first `and` is looked for inside the range, the second one behind the negated term; it is
the only connective. -/
theorem derivations_of_conditions_negatedRange :
    (∃! e : ConditionTree, e.tokens = negatedRange.tokens) ∧
    (∃ progress, (negatedRange.tokens.take 4).foldlM (Progress.step? grammar) {} = some progress ∧
      .keyword .and ∈ progress.wanted grammar) ∧
    negatedRange.marked.filterMap (fun m => if m.2 then some m.1 else none) =
      [⟨.keyword .and, "and".toList⟩] := by
  obtain ⟨haccepted, hderivation, -⟩ := derivations_of_conditions
  refine ⟨(haccepted _).mp ⟨_, negatedRange.formula?_tokens⟩, ?_, rfl⟩
  exact (hderivation negatedRange).2.2 (negatedRange.tokens.take 4) ⟨.keyword .and, "and".toList⟩
    (negatedRange.tokens.drop 5) rfl

end Sql
end RuleTree
