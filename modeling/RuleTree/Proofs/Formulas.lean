import RuleTree.Proofs.Tokens

/-! # Formulas in their place

`Stands g m w c` says that wherever a term may come the text `w` is read as one,
whose clause is `c`, provided that something follows which ends it.  Two values
with a sign between them are such a term (`readsTerm_operation`), and so is a name
with an argument in parentheses (`readsTerm_application`).  Where a grammar has
parentheses, connectives and a negation (`Punctuates`), terms with a connective
between them make up a group in parentheses (`Stands.group`) and a whole source
(`readText_terms`), and negation complements them (`Stands.negation`).
-/
namespace RuleTree
namespace Source
variable {S P : Type} {g : Grammar S P} {m : Meaning P}

/-- Wherever a term may come the text is read as the term. -/
def ReadsTerm (g : Grammar S P) (w : List Char) (t : Term P) : Prop :=
  ∀ outer level rest, Stops rest →
    readFrom g ⟨outer, level, .ahead⟩ (w ++ rest) = readFrom g (.complete outer level t) rest

/-- Wherever a term may come the text is read as one with the clause. -/
structure Stands (g : Grammar S P) (m : Meaning P) (w : List Char) (c : Clause) : Prop where
  starts : ∃ d cs, w = d :: cs ∧ Text.isBlank d = false
  term : ∃ t, m.term t = .ok c ∧ ReadsTerm g w t

/-- How a grammar reads the signs between and around terms. -/
structure Punctuates (g : Grammar S P) (sign : List Char)
    (separator : Junction → List Char) : Prop where
  opens : ∀ outer level rest,
    readFrom g ⟨outer, level, .ahead⟩ ('(' :: rest) = readFrom g ⟨level :: outer, {}, .ahead⟩ rest
  closes : ∀ outer around level t rest,
    readFrom g ⟨around :: outer, level, .behind t⟩ (')' :: rest) =
      readFrom g (.complete outer around (.group (Formula.close level.done t []).head
        (Formula.close level.done t []).tail)) rest
  joins : ∀ j outer level t rest,
    readFrom g ⟨outer, level, .behind t⟩ (separator j ++ rest) =
      readFrom g ⟨outer, ⟨(t, j) :: level.done, 0⟩, .ahead⟩ rest
  negates : ∀ outer level rest,
    readFrom g ⟨outer, level, .ahead⟩ (sign ++ rest) =
      readFrom g ⟨outer, { level with negations := level.negations + 1 }, .ahead⟩ rest
  starts : ∃ d cs, sign = d :: cs ∧ Text.isBlank d = false
  separates : ∀ j rest, Stops (separator j ++ rest)

section
variable {sign : List Char} {separator : Junction → List Char}

/-- Negations apply from the inside. -/
theorem negated_negation (n : Nat) (t : Term P) :
    (Term.negation t).negated n = t.negated (n + 1) := by
  induction n with
  | zero => rfl
  | succ n ih => rw [Term.negated, ih]; rfl

/-- A negated term is the complement. -/
theorem Stands.negation (hp : Punctuates g sign separator) {w : List Char} {c c' : Clause}
    (h : Stands g m w c) (hc : m.negation c = .ok c') : Stands g m (sign ++ w) c' where
  starts := by
    obtain ⟨d, cs, hd, hblank⟩ := hp.starts
    exact ⟨d, cs ++ w, by rw [hd]; rfl, hblank⟩
  term := by
    obtain ⟨t, ht, hreads⟩ := h.term
    refine ⟨.negation t, by rw [Meaning.term, ht]; exact hc, fun outer level rest hrest => ?_⟩
    rw [List.append_assoc, hp.negates, hreads _ _ _ hrest, Progress.complete,
      Progress.complete, negated_negation]

/-- A predicate stands for its clause. -/
theorem Stands.predicate {w : List Char} {p : P} {c : Clause}
    (starts : ∃ d cs, w = d :: cs ∧ Text.isBlank d = false)
    (hw : ReadsTerm g w (.predicate p)) (hp : m.predicate p = .ok c) : Stands g m w c :=
  ⟨starts, .predicate p, by rw [Meaning.term, hp], hw⟩

/-- A value, a sign with blanks around it and another value are a predicate. -/
theorem readsTerm_operation {w sign w' : List Char} {s next : S} {t : Terminal} {v : Leaf}
    {p : P}
    (hleft : ∀ {outer level rest}, Stops rest →
      readFrom g ⟨outer, level, .ahead⟩ (w ++ rest) = readFrom g ⟨outer, level, .inside s⟩ rest)
    (hsign : ∀ rest, g.lexicon.Lexes (g.inside s) sign (' ' :: rest) t)
    (hstep : g.step? s ⟨t, sign⟩ = some (.more next)) (hv : g.lexicon.Spells w' v)
    (hwanted : g.lexicon.WantsValue (g.inside next))
    (hvalue : ∀ t, t.leaf? = some v → g.step? next t = some (.done p)) :
    ReadsTerm g (w ++ ' ' :: (sign ++ ' ' :: w')) (.predicate p) := by
  intro outer level rest hrest
  rw [List.append_assoc, List.cons_append, hleft (stops_space _), readFrom_space,
    List.append_assoc]
  refine Eq.trans (readFrom_more (hsign _) hstep) ?_
  rw [List.cons_append, readFrom_space]
  exact readFrom_value_done hv hwanted hvalue hrest

/-- A name and an argument in parentheses are a predicate. -/
theorem readsTerm_application {w w' : List Char} {s : S} {v : Leaf} {wrap : Items → S}
    {finish : List Leaf → P}
    (hleft : ∀ {outer level rest}, Stops rest →
      readFrom g ⟨outer, level, .ahead⟩ (w ++ rest) = readFrom g ⟨outer, level, .inside s⟩ rest)
    (hopen : ∀ rest, g.lexicon.Lexes (g.inside s) ['('] rest (.mark .parenOpen))
    (hstep : g.step? s ⟨.mark .parenOpen, ['(']⟩ = some (.more (wrap .opened)))
    (hrow : IsRow g .parenClose ')' wrap fun items => .done (finish items))
    (hv : g.lexicon.Spells w' v) :
    ReadsTerm g (w ++ (['('] ++ (w' ++ [')']))) (.predicate (finish [v])) := by
  intro outer level rest hrest
  have hitems : readFrom g ⟨outer, level, .inside (wrap .opened)⟩
      ([',', ' '].intercalate [w'] ++ ')' :: rest) =
        readFrom g (.complete outer level (.predicate (finish [v]))) rest :=
    readFrom_items hrow (.cons hv .nil) (List.cons_ne_nil _ _) rest
  rw [List.append_assoc, hleft (by simp [Stops]), List.append_assoc]
  refine Eq.trans (readFrom_more (hopen _) hstep) ?_
  rw [List.append_assoc]
  simpa using hitems

/-! ### Terms in a row -/

/-- Texts that stand for clauses are terms that mean them. -/
theorem exists_terms {ws : List (List Char)} {cs : List Clause}
    (h : List.Forall₂ (Stands g m) ws cs) :
    ∃ ts, List.Forall₂ (ReadsTerm g) ws ts ∧ List.Forall₂ (fun t c => m.term t = .ok c) ts cs := by
  induction h with
  | nil => exact ⟨[], .nil, .nil⟩
  | cons hw _ ih =>
    obtain ⟨t, ht, hreads⟩ := hw.term
    obtain ⟨ts, hall, hterms⟩ := ih
    exact ⟨t :: ts, .cons hreads hall, .cons ht hterms⟩

theorem terms_map (j : Junction) {ts : List (Term P)} {cs : List Clause}
    (h : List.Forall₂ (fun t c => m.term t = .ok c) ts cs) :
    m.terms (ts.map (j, ·)) = .ok (cs.map (j, ·)) := by
  induction h with
  | nil => rfl
  | cons ht _ ih =>
    rw [List.map_cons, Meaning.terms, ht, ih]
    rfl

/-- Terms with a connective between them are read one by one, and closing the
formula behind the last one gives them back in order. -/
theorem readFrom_terms (hp : Punctuates g sign separator) (j : Junction) {w : List Char}
    {t : Term P} {ws : List (List Char)} {ts : List (Term P)} (hw : ReadsTerm g w t)
    (h : List.Forall₂ (ReadsTerm g) ws ts) (outer : List (Level P))
    (done : List (Term P × Junction)) {rest : List Char} (hrest : Stops rest) :
    ∃ done' t', readFrom g ⟨outer, ⟨done, 0⟩, .ahead⟩
        ((separator j).intercalate (w :: ws) ++ rest) =
        readFrom g ⟨outer, ⟨done', 0⟩, .behind t'⟩ rest ∧
      Formula.close done' t' [] = Formula.close done t (ts.map (j, ·)) := by
  -- every connective moves the term before it to those that are done
  induction h generalizing w t done with
  | nil =>
    refine ⟨done, t, ?_, rfl⟩
    rw [List.intercalate_singleton, hw _ _ _ hrest]
    rfl
  | @cons next t₂ ws ts hnext _ ih =>
    obtain ⟨done', t', hread, hclose⟩ := ih hnext ((t, j) :: done)
    refine ⟨done', t', ?_, hclose⟩
    rw [List.intercalate_cons_cons, List.append_assoc, List.append_assoc,
      hw _ _ _ (hp.separates j _), Progress.complete, hp.joins]
    exact hread

/-- Terms with a connective between them are a group in parentheses. -/
theorem Stands.group (hp : Punctuates g sign separator) (j : Junction)
    {ws : List (List Char)} {head : Clause} {cs : List Clause}
    (h : List.Forall₂ (Stands g m) ws (head :: cs)) :
    Stands g m ('(' :: ((separator j).intercalate ws ++ [')']))
      (Clause.join j false (head :: cs)) where
  starts := ⟨'(', _, rfl, by decide⟩
  term := by
    obtain ⟨ts, hreads, hterms⟩ := exists_terms h
    cases hterms with
    | @cons t _ ts _ ht hts =>
      cases hreads with
      | cons hw hws =>
        refine ⟨.group t (ts.map (j, ·)), ?_, fun outer level rest hrest => ?_⟩
        · rw [Meaning.term, ht, terms_map j hts]
          rfl
        · obtain ⟨done', t', hread, hclose⟩ :=
            readFrom_terms hp j hw hws (level :: outer) [] (stops_parenClose rest)
          rw [List.cons_append, List.append_assoc, hp.opens]
          refine hread.trans ?_
          rw [hp.closes, hclose]
          rfl

/-- A source of terms with a connective between them is the group of their
clauses. -/
theorem readText_terms (hp : Punctuates g sign separator) (dialect : Dialect)
    (j : Junction) {s : String} {ws : List (List Char)} {head : Clause} {cs : List Clause}
    (hs : s.toList = (separator j).intercalate ws)
    (h : List.Forall₂ (Stands g m) ws (head :: cs)) :
    readText g m dialect (.text s) = .ok (some (Clause.join j false (head :: cs))) := by
  obtain ⟨ts, hreads, hterms⟩ := exists_terms h
  cases h with
  | @cons w _ ws _ hw _ =>
    cases hterms with
    | @cons t _ ts _ ht hts =>
      cases hreads with
      | cons hread hreads =>
        obtain ⟨done, last, hlast, hclose⟩ := readFrom_terms hp j hread hreads [] [] stops_nil
        have hformula : readFormula g dialect s.toList = .ok ⟨t, ts.map (j, ·)⟩ := by
          have hfinish : (⟨[], ⟨done, 0⟩, .behind last⟩ : Progress S P).finish? =
              some ⟨t, ts.map (j, ·)⟩ := congrArg some hclose
          rw [List.append_nil, ← hs] at hlast
          rw [readFormula, hlast, readFrom_nil hfinish]
        have hblank : Text.trimBoth s.toList ≠ [] := by
          obtain ⟨d, cs, rfl, hd⟩ := hw.starts
          rw [hs, List.intercalate_cons_cons_left]
          exact Text.trimBoth_ne_nil hd _
        have hmeaning : m.formula ⟨t, ts.map (j, ·)⟩ = .ok (Clause.join j false (head :: cs)) := by
          rw [Meaning.formula, Meaning.term, ht, terms_map j hts]
          rfl
        rw [readText, if_neg (by simpa using hblank), hformula]
        exact congrArg (Except.map some) hmeaning

end
end Source
end RuleTree
