import RuleTree.Proofs.Predicates
import RuleTree.Proofs.ReadClauses

/-! # What the readers of texts make

The text languages make clauses of the rules that readers make (`Clause.IsReadWithin`) from the
predicates of their formulas (`Source.Meaning.MakesRead.readText`).

Where digits are limited, the literals of the rules fit because no leaf of the formula has more
digits (`Source.SpellsFew`): a text loses its quotes and its escapes, and what is left of a
pattern is part of it.
-/
namespace RuleTree

/-! ### Terms -/

namespace Source
variable {limit bound : DigitLimit} {S P : Type} {m : Meaning P} {leaves : P → List Leaf}

/-- A leaf with no more digits than the bound, if there is one. -/
def Leaf.IsBriefWithin (bound : DigitLimit) (v : Leaf) : Prop :=
  ∀ digits ∈ bound, v.isBrief digits = true

/-- The literals of such leaves fit. -/
theorem Leaf.IsBriefWithin.fitsWithin_operand {name : FieldName → String}
    {text : List Char → List Char}
    (htext : ∀ spelling, Text.digitCount (text spelling) ≤ Text.digitCount spelling) {v : Leaf}
    (h : v.IsBriefWithin bound) : (v.operand name text).FitsWithin bound := by
  cases hv : v.operand name text with
  | field => trivial
  | literal w =>
    exact fun digits hdigits =>
      Value.fits_of_isBrief (v.isBrief_of_operand htext (h digits hdigits) hv)

/-- Predicates with such leaves mean clauses of literals that fit, and so do negations of
clauses. -/
structure Meaning.MakesRead (m : Meaning P) (leaves : P → List Leaf) (limit bound : DigitLimit) :
    Prop where
  predicate (p : P) : (∀ v ∈ leaves p, v.IsBriefWithin bound) →
    (m.predicate p).ReadsWithin limit bound (Clause.IsReadWithin bound true)
  negation (c : Clause) : c.IsReadWithin bound true →
    (m.negation c).ReadsWithin limit bound (Clause.IsReadWithin bound true)

/-- Reading the leaves of a predicate first is within the bound as well. -/
theorem Meaning.MakesRead.within (h : m.MakesRead leaves limit bound) :
    (m.within leaves limit).MakesRead leaves limit bound := by
  cases limit with
  | none => exact h
  | some most =>
    refine ⟨fun p hp => ?_, h.negation⟩
    refine (Result.reads_check fun digits hdigits => ?_).bind fun _ _ => h.predicate p hp
    exact List.forall_mem_flatMap.mpr fun v hv => v.fits_conversions (hp v hv digits hdigits)

mutual
theorem Meaning.MakesRead.term (h : m.MakesRead leaves limit bound) : ∀ t : Term P,
    (∀ p ∈ t.predicates, ∀ v ∈ leaves p, v.IsBriefWithin bound) →
      (m.term t).ReadsWithin limit bound (Clause.IsReadWithin bound true)
  | .predicate p, hp =>
    h.predicate p (hp p (by rw [Term.predicates]; exact List.mem_singleton_self p))
  | .negation t, hp => (term h t hp).bind h.negation
  | .group head tail, hp => by
    rw [Term.predicates] at hp
    obtain ⟨hhead, htail⟩ := List.forall_mem_append.mp hp
    refine (term h head hhead).bind fun _ hfirst => (terms h tail htail).bind fun _ hrest => ?_
    exact Result.reads_ok (.group hfirst hrest)

theorem Meaning.MakesRead.terms (h : m.MakesRead leaves limit bound) :
    ∀ ts : List (Junction × Term P),
      (∀ p ∈ Term.turnPredicates ts, ∀ v ∈ leaves p, v.IsBriefWithin bound) →
        (m.terms ts).ReadsWithin limit bound fun clauses =>
          ∀ e ∈ clauses, e.2.IsReadWithin bound true
  | [], _ => Result.reads_ok (by simp)
  | (_, t) :: rest, hp => by
    rw [Term.turnPredicates] at hp
    obtain ⟨ht, hrest⟩ := List.forall_mem_append.mp hp
    refine (term h t ht).bind fun _ hfirst => (terms h rest hrest).bind fun _ hclauses => ?_
    exact Result.reads_ok (List.forall_mem_cons.mpr ⟨hfirst, hclauses⟩)
end

/-- Whether no literal that a text spells has more than so many digits. -/
def SpellsFew (g : Grammar S P) (leaves : P → List Leaf) (dialect : Dialect) (digits : Nat)
    (source : Value) : Prop :=
  ∀ s f, source = .text s → readFormula g dialect s.toList = .ok f →
    ∀ p ∈ f.predicates, ∀ v ∈ leaves p, v.isBrief digits = true

theorem reads_readFormula (g : Grammar S P) (dialect : Dialect) (source : List Char) :
    (readFormula g dialect source).ReadsWithin limit bound fun f =>
      readFormula g dialect source = .ok f := by
  unfold readFormula
  split
  · exact Result.reads_ok rfl
  · rename_i stop _
    cases stop <;> exact Result.reads_worded rfl

/-- A text is read as such a clause, if it is not blank. -/
theorem Meaning.MakesRead.readText (h : m.MakesRead leaves limit bound) (g : Grammar S P)
    (dialect : Dialect) (source : Value)
    (hfew : ∀ digits ∈ bound, SpellsFew g leaves dialect digits source) :
    (readText g m dialect source).ReadsWithin limit bound fun c? =>
      ∀ c ∈ c?, c.IsReadWithin bound true := by
  unfold Source.readText
  split
  · rename_i s
    split
    · exact Result.reads_ok (by simp)
    · refine (reads_readFormula g dialect s.toList).bind fun f hf => ?_
      refine (h.term (.group f.head f.tail) ?_).bind fun c hc =>
        Result.reads_ok (by simpa using hc)
      exact fun p hp v hv digits hdigits => hfew digits hdigits s f rfl hf p hp v hv
  · exact Result.reads_worded rfl

end Source

section
variable {limit bound : DigitLimit}

namespace Sql
open Source

/-- A text has no more digits than it is spelled with. -/
theorem digitCount_unquoted_le (quote : Char) (spelling : List Char) :
    Text.digitCount (unquoted quote spelling) ≤ Text.digitCount spelling :=
  (Text.digitCount_replaceAll_le _).trans
    (Text.digitCount_le ((List.dropLast_sublist _).trans (List.tail_sublist _)))

theorem fitsWithin_operand {v : Leaf} (h : v.IsBriefWithin bound) : (operand v).FitsWithin bound :=
  h.fitsWithin_operand (digitCount_unquoted_le _)

theorem forall_fitsWithin_operand {vs : List Leaf} (h : ∀ v ∈ vs, v.IsBriefWithin bound) :
    ∀ o ∈ vs.map operand, o.FitsWithin bound :=
  List.forall_mem_map.mpr fun v hv => fitsWithin_operand (h v hv)

/-- A pattern is one of few digits where it is spelled with few. -/
theorem reads_patternRule (field : FieldName) (negated : Bool) {pattern : Leaf}
    (h : pattern.IsBriefWithin bound) : (patternRule field negated pattern).ReadsWithin limit bound
      (Rule.IsReadWithin bound true) := by
  unfold patternRule
  split
  · exact Result.reads_unrepresentable _ _
  · exact Result.reads_unrepresentable _ _
  · rename_i v _ hv
    refine Result.reads_ok (.value _ _ fun digits hdigits => ?_)
    obtain ⟨hlist, hmap⟩ := pattern.ne_of_operand hv
    exact fits_readLikePattern_display
      (pattern.isBrief_of_operand (digitCount_unquoted_le _) (h digits hdigits) hv) hlist hmap

theorem reads_predicateClause (p : Predicate) (h : ∀ v ∈ p.leaves, v.IsBriefWithin bound) :
    (predicateClause p).ReadsWithin limit bound (Clause.IsReadWithin bound true) := by
  cases p with
  | comparison left operator right =>
    rw [predicateClause]
    rw [Predicate.leaves, List.forall_mem_cons, List.forall_mem_singleton] at h
    exact Clause.reads_comparisonClause _ _ _ (fitsWithin_operand h.1) (fitsWithin_operand h.2)
  | like field negated pattern =>
    exact (reads_patternRule _ _ (h pattern (List.mem_singleton_self _))).map fun _ hr => .rule hr
  | membership field negated items =>
    rw [predicateClause]
    refine (Clause.reads_listRule _ (.inl ?_) (forall_fitsWithin_operand h)).map
      fun _ hr => .rule hr
    cases negated <;> rfl
  | range field negated low high =>
    rw [predicateClause]
    refine (Clause.reads_listRule _ (.inr ?_) (forall_fitsWithin_operand h)).map
      fun _ hr => .rule hr
    cases negated <;> rfl
  | nullCheck field negated =>
    exact Result.reads_ok (.rule (.value _ _ fun digits _ => Value.fits_of_isBrief rfl))

theorem makesRead_meaning : meaning.MakesRead Predicate.leaves limit bound :=
  ⟨reads_predicateClause, fun _ hc => hc.reads_negate⟩

end Sql

namespace Expression

theorem reads_splitCall (name : String) :
    (splitCall name).ReadsWithin limit bound fun _ => True := by
  unfold splitCall
  split
  · exact Result.reads_ok trivial
  · exact Result.reads_worded rfl

theorem reads_callRule (dialect : Dialect) (name : String) {arguments : List Operand}
    (harguments : ∀ o ∈ arguments, o.FitsWithin bound) :
    (callRule dialect name arguments).ReadsWithin limit bound (Rule.IsReadWithin bound true) :=
  (reads_splitCall name).bind fun _ _ => Clause.reads_methodRule _ _ _ harguments

end Expression

namespace Cel
open Source

theorem fitsWithin_operand {v : Leaf} (h : v.IsBriefWithin bound) :
    (operand v).FitsWithin bound := by
  refine h.fitsWithin_operand fun spelling => (Text.digitCount_unescaped_le _).trans ?_
  exact Text.digitCount_le ((List.dropLast_sublist _).trans (List.tail_sublist _))

theorem forall_fitsWithin_operand {vs : List Leaf} (h : ∀ v ∈ vs, v.IsBriefWithin bound) :
    ∀ o ∈ vs.map operand, o.FitsWithin bound :=
  List.forall_mem_map.mpr fun v hv => fitsWithin_operand (h v hv)

theorem reads_predicateClause (p : Predicate) (h : ∀ v ∈ p.leaves, v.IsBriefWithin bound) :
    (predicateClause p).ReadsWithin limit bound (Clause.IsReadWithin bound true) := by
  cases p with
  | comparison left operator right =>
    rw [predicateClause]
    rw [Predicate.leaves, List.forall_mem_cons, List.forall_mem_singleton] at h
    exact Clause.reads_comparisonClause _ _ _ (fitsWithin_operand h.1) (fitsWithin_operand h.2)
  | membership left items =>
    rw [predicateClause]
    have hitems := forall_fitsWithin_operand (List.forall_mem_cons.mp h).2
    -- only a field can be looked for in a list
    split
    · exact (Clause.reads_listRule _ (.inl rfl) hitems).map fun _ hr => .rule hr
    · exact Result.reads_worded rfl
  | call name arguments =>
    exact (Expression.reads_callRule _ _ (forall_fitsWithin_operand h)).map fun _ hr => .rule hr

/-- The opposite membership is such a rule too. -/
theorem reads_negate (c : Clause) (h : c.IsReadWithin bound true) :
    (negate c).ReadsWithin limit bound (Clause.IsReadWithin bound true) := by
  unfold negate
  split
  · split
    · cases h with
      | group hrule _ =>
        cases hrule with
        | rule hr => exact Result.reads_ok (.rule hr.invert)
    · exact h.reads_negate
  · exact h.reads_negate

theorem makesRead_meaning : meaning.MakesRead Predicate.leaves limit bound :=
  ⟨reads_predicateClause, reads_negate⟩

end Cel

/-- The text of a pattern is part of the pattern. -/
theorem Pattern.reads_rule {matching : Bool} (dialect field : String) {pattern : Value}
    (h : pattern.IsBriefWithin bound) :
    (rule (.text dialect) (.text field) pattern).ReadsWithin limit bound
      (Rule.IsReadWithin bound matching) := by
  unfold rule
  split
  · rename_i s
    split
    · rename_i operator text hread
      refine Result.reads_ok (.value field operator fun digits hdigits => Value.fits_text ?_)
      have hpattern : Text.digitCount s.toList ≤ digits := by
        simpa [Value.isBrief] using h digits hdigits
      rw [String.toList_ofList]
      exact (digitCount_read?_le _ hread).trans hpattern
    · exact Result.reads_unrepresentable _ _
  · exact Result.reads_worded rfl

namespace Spel
open Source

/-- A text has no more digits than it is spelled with. -/
theorem digitCount_textOf_le (spelling : List Char) :
    Text.digitCount (textOf spelling) ≤ Text.digitCount spelling := by
  unfold textOf
  split
  · exact (Text.digitCount_replaceAll_le _).trans
      (Text.digitCount_le ((List.dropLast_sublist _).trans (List.sublist_cons_self _ _)))
  · exact Nat.le_refl _

theorem fitsWithin_operand {v : Leaf} (h : v.IsBriefWithin bound) : (operand v).FitsWithin bound :=
  h.fitsWithin_operand digitCount_textOf_le

theorem forall_fitsWithin_operand {vs : List Leaf} (h : ∀ v ∈ vs, v.IsBriefWithin bound) :
    ∀ o ∈ vs.map operand, o.FitsWithin bound :=
  List.forall_mem_map.mpr fun v hv => fitsWithin_operand (h v hv)

theorem reads_predicateClause (p : Predicate) (h : ∀ v ∈ p.leaves, v.IsBriefWithin bound) :
    (predicateClause p).ReadsWithin limit bound (Clause.IsReadWithin bound true) := by
  cases p with
  | comparison left operator right =>
    rw [predicateClause]
    rw [Predicate.leaves, List.forall_mem_cons, List.forall_mem_singleton] at h
    exact Clause.reads_comparisonClause _ _ _ (fitsWithin_operand h.1) (fitsWithin_operand h.2)
  | matching left right =>
    rw [predicateClause]
    rw [Predicate.leaves, List.forall_mem_cons, List.forall_mem_singleton] at h
    -- a field against the text of a pattern
    split
    · rename_i v _ hv
      refine (Pattern.reads_rule "spel" _ fun digits hdigits => ?_).map fun _ hr => .rule hr
      exact right.isBrief_of_operand digitCount_textOf_le (h.2 digits hdigits) hv
    · exact Result.reads_unrepresentable _ _
  | call name arguments =>
    exact (Expression.reads_callRule _ _ (forall_fitsWithin_operand h)).map fun _ hr => .rule hr
  | listCall items method argument =>
    rw [predicateClause]
    have hitems := forall_fitsWithin_operand (List.forall_mem_append.mp h).1
    -- the one method that a list has, with a field as its argument
    split
    · exact Result.reads_unrepresentable _ _
    · split
      · exact (Clause.reads_listRule _ (.inl rfl) hitems).map fun _ hr => .rule hr
      · exact Result.reads_worded rfl

theorem makesRead_meaning : meaning.MakesRead Predicate.leaves limit bound :=
  ⟨reads_predicateClause, fun _ hc => hc.reads_negate⟩

end Spel

end

end RuleTree
