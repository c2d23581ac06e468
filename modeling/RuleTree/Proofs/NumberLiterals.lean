import RuleTree.Proofs.ComparedLiterals
import RuleTree.Proofs.NumberValues

/-! # Numbers of a source

The number tokens of a source are numerals, whatever stands around them (`Leaf.IsSpelled`), and
the numbers that a field is compared with in a predicate are among the literals of the clause that
it means.  So the numbers of a source that is read are found in the rules of its tree, in their
order and with their fields, where lists are kept (`NumberSyntax.parse_numbers`).  They are numbers
there, unless they end with their point or have the exponent right behind it:
`a = 5.` compares with a text (`NumberSyntax.parse_numbers_trailing_point`).
-/
namespace RuleTree
open Text NumberShape Source

/-! ### Leaves -/

namespace Source

/-- The spelling of a number. -/
def Leaf.number? : Leaf → Option (List Char)
  | .number w => some w
  | _ => none

/-- A number is spelled as a numeral. -/
def Leaf.IsSpelled (v : Leaf) : Prop := ∀ w, v.number? = some w → w ∈ numeral

/-- The values of a list that has been read so far, last one first. -/
def Items.leaves : Items → List Leaf
  | .opened => []
  | .item before last => last :: before
  | .comma before => before

section
variable {l : Lexicon} {t : Token} (ht : l.IsToken t)
include ht

theorem isSpelled_of_leaf? {v : Leaf} (h : t.leaf? = some v) : v.IsSpelled := by
  rintro w hw
  obtain ⟨wanted, rest, hlexes⟩ := ht
  have hterminal := Token.terminal_of_leaf? h
  cases v with
  | number spelling =>
    obtain rfl := Option.some.inj hw
    have hspelling : t.spelling = spelling := by
      rw [Token.leaf?, ← hterminal] at h
      exact Leaf.number.inj (Option.some.inj h)
    rw [← hterminal, hspelling] at hlexes
    exact mem_numeral.mpr hlexes.number
  | _ => cases hw

/-- Signs of comparison are short. -/
theorem length_le_of_comparator (hsigns : ∀ sign ∈ l.comparators, sign.length ≤ 2)
    (h : t.terminal = .comparator) : t.spelling.length ≤ 2 := by
  obtain ⟨wanted, rest, hlexes⟩ := ht
  rw [h] at hlexes
  exact hsigns _ hlexes.comparator

/-- A keyword is as long as its letters. -/
theorem length_of_keyword {k : Keyword} (h : t.terminal = .keyword k) :
    t.spelling.length = k.letters.length := by
  obtain ⟨wanted, rest, hlexes⟩ := ht
  rw [h] at hlexes
  rw [← hlexes.keyword.2, List.length_map]

theorem Items.isSpelled_of_step? {close : Mark} {items : Items} {next : Step Items (List Leaf)}
    (hitems : ∀ v ∈ items.leaves, v.IsSpelled) (h : items.step? close t = some next) :
    next.Holds (fun items => ∀ v ∈ items.leaves, v.IsSpelled) fun vs => ∀ v ∈ vs, v.IsSpelled := by
  cases items with
  | opened =>
    unfold step? at h
    dsimp only at h
    split at h
    · obtain rfl := Option.some.inj h
      exact List.forall_mem_nil _
    · obtain ⟨v, hv, rfl⟩ := Option.map_eq_some_iff.mp h
      exact List.forall_mem_singleton.mpr (isSpelled_of_leaf? ht hv)
  | item before last =>
    unfold step? at h
    dsimp only at h
    split at h
    · obtain rfl := Option.some.inj h
      exact fun v hv => hitems v (List.mem_reverse.mp hv)
    · split at h
      · obtain rfl := Option.some.inj h
        exact hitems
      · cases h
  | comma before =>
    obtain ⟨v, hv, rfl⟩ := Option.map_eq_some_iff.mp h
    exact List.forall_mem_cons.mpr ⟨isSpelled_of_leaf? ht hv, hitems⟩

end

/-! ### Numbers of predicates -/

/-- The number that a field is compared with, and the name of the field. -/
def comparisonNumbers (name : FieldName → String) : Leaf → Leaf → List (String × List Char)
  | .field f, .number w => [(name f, w)]
  | .number w, .field f => [(name f, w)]
  | _, _ => []

/-- The numbers among the items that a field is compared with, and its name. -/
def itemNumbers (field : String) (items : List Leaf) : List (String × List Char) :=
  (items.filterMap Leaf.number?).map fun w => (field, w)

/-- A number of a source as a literal of a rule. -/
def numberEntry (e : String × List Char) : Value × Value := (.text e.1, numberValue e.2)

variable {name : FieldName → String} {text : List Char → List Char} {field : String}

theorem comparisonNumbers_sublist (left right : Leaf) :
    ((comparisonNumbers name left right).map numberEntry).Sublist
      (Clause.compared (left.operand name text) (right.operand name text)) := by
  cases left <;> cases right <;>
    first
    | exact List.nil_sublist _
    | exact List.Sublist.refl _

theorem itemNumbers_sublist (items : List Leaf) :
    ((itemNumbers field items).map numberEntry).Sublist
      (Clause.listed field (items.map (Leaf.operand name text))) := by
  have hvalues : ((items.filterMap Leaf.number?).map numberValue).Sublist
      ((items.map (Leaf.operand name text)).filterMap Operand.literal?) := by
    induction items with
    | nil => exact List.Sublist.refl _
    | cons v items ih =>
      cases v with
      | field f => exact ih
      | number w => exact ih.cons_cons _
      | _ => exact ih.cons _
  rw [itemNumbers, List.map_map, Clause.listed]
  have hentries := hvalues.map fun v => (Value.text field, v)
  rwa [List.map_map] at hentries

/-- The clause of a comparison has the number of it. -/
theorem reads_comparisonClause_numbers {d : Dialect} (hd : d ∈ Dialect.texts) {sign : List Char}
    (hshort : sign.length ≤ 2) (nullChecks : Bool) (left right : Leaf) :
    (comparisonClause d nullChecks (left.operand name text) (String.ofList sign)
      (right.operand name text)).Reads
        (Clause.Lists ((comparisonNumbers name left right).map numberEntry)) :=
  (Clause.reads_comparisonClause_entries hd hshort nullChecks left.isScalar_operand
    right.isScalar_operand).mono fun _ hc => hc.mono (comparisonNumbers_sublist left right)

/-- The clause of a list has the numbers of its items. -/
theorem reads_listRule_numbers {op : Operator} (hmulti : op.isMulti = true) (items : List Leaf) :
    Result.Reads (Clause.Lists ((itemNumbers field items).map numberEntry))
      ((Clause.listRule field op (items.map (Leaf.operand name text))).map .rule) := by
  refine (Clause.reads_listRule_entries field _ hmulti).map fun r hr => .rule hr.1 ?_
  rw [hr.2]
  exact itemNumbers_sublist items

theorem mem_numeral_of_comparison {left right : Leaf} (hleft : left.IsSpelled)
    (hright : right.IsSpelled) : ∀ e ∈ comparisonNumbers name left right, e.2 ∈ numeral := by
  unfold comparisonNumbers
  split
  · exact List.forall_mem_singleton.mpr (hright _ rfl)
  · exact List.forall_mem_singleton.mpr (hleft _ rfl)
  · exact List.forall_mem_nil _

theorem mem_numeral_of_items {items : List Leaf} (h : ∀ v ∈ items, v.IsSpelled) :
    ∀ e ∈ itemNumbers field items, e.2 ∈ numeral := by
  refine List.forall_mem_map.mpr fun w hw => ?_
  obtain ⟨v, hv, hnumber⟩ := List.mem_filterMap.mp hw
  exact h v hv w hnumber

end Source

/-! ### SQL -/

namespace Sql

/-- The numbers that a field is compared with in a predicate. -/
def Predicate.numbers : Predicate → List (String × List Char)
  | .comparison left _ right => comparisonNumbers nameOf left right
  | .membership field _ items => itemNumbers (nameOf field) items
  | .range field _ low high => itemNumbers (nameOf field) [low, high]
  | _ => []

/-- The numbers are spelled as numerals, and a sign of comparison is short. -/
def Predicate.IsSpelled : Predicate → Prop
  | .comparison left operator right => left.IsSpelled ∧ operator.length ≤ 2 ∧ right.IsSpelled
  | .membership _ _ items => ∀ v ∈ items, v.IsSpelled
  | .range _ _ low high => low.IsSpelled ∧ high.IsSpelled
  | _ => True

/-- What has been read of a predicate is spelled so. -/
def Partial.IsSpelled : Partial → Prop
  | .afterLeft v => v.IsSpelled
  | .afterSign left operator => left.IsSpelled ∧ operator.length ≤ 2
  | .inList _ _ items => ∀ v ∈ items.leaves, v.IsSpelled
  | .afterLow _ _ low => low.IsSpelled
  | .afterAnd _ _ low => low.IsSpelled
  | _ => True

theorem isSpelled_ofKeyword? {field : FieldName} {negated : Bool} {k : Keyword} {s : Partial}
    (h : Partial.ofKeyword? field negated k = some s) : s.IsSpelled := by
  unfold Partial.ofKeyword? at h
  split at h <;> cases h <;> trivial

theorem isSpelled_afterLeft? {t : Token} (ht : lexicon.IsToken t) {v : Leaf} (hv : v.IsSpelled)
    {s : Partial} (h : Partial.afterLeft? v t = some s) : s.IsSpelled := by
  unfold Partial.afterLeft? at h
  split at h
  · rename_i hterminal
    obtain rfl := Option.some.inj h
    exact ⟨hv, length_le_of_comparator ht (by decide) hterminal⟩
  · obtain rfl := Option.some.inj h
    trivial
  · obtain rfl := Option.some.inj h
    trivial
  · exact isSpelled_ofKeyword? h
  · cases h

/-- Every token keeps what has been read spelled so. -/
theorem makes_isSpelled : grammar.Makes Partial.IsSpelled Predicate.IsSpelled where
  start ht h := by
    obtain ⟨v, hv, rfl⟩ := Option.map_eq_some_iff.mp h
    exact isSpelled_of_leaf? ht hv
  step {t s next} ht hs h := by
    change s.step? t = some next at h
    cases s with
    | afterLeft v =>
      obtain ⟨s, hleft, rfl⟩ := Option.map_eq_some_iff.mp h
      exact isSpelled_afterLeft? ht hs hleft
    | afterSign left operator =>
      obtain ⟨v, hv, rfl⟩ := Option.map_eq_some_iff.mp h
      exact ⟨hs.1, hs.2, isSpelled_of_leaf? ht hv⟩
    | afterNot field =>
      simp only [Partial.step?] at h
      split at h
      · obtain ⟨s, hkeyword, rfl⟩ := Option.map_eq_some_iff.mp h
        exact isSpelled_ofKeyword? hkeyword
      · cases h
    | afterLike field negated =>
      obtain ⟨v, -, rfl⟩ := Option.map_eq_some_iff.mp h
      trivial
    | afterIn field negated =>
      obtain ⟨-, hopened⟩ := Option.ite_none_right_eq_some.mp h
      obtain rfl := Option.some.inj hopened
      exact List.forall_mem_nil _
    | inList field negated items =>
      obtain ⟨items, hitems, rfl⟩ := Option.map_eq_some_iff.mp h
      have hnext := Items.isSpelled_of_step? ht hs hitems
      cases items <;> exact hnext
    | afterBetween field negated =>
      obtain ⟨v, hv, rfl⟩ := Option.map_eq_some_iff.mp h
      exact isSpelled_of_leaf? ht hv
    | afterLow field negated low =>
      obtain ⟨-, hand⟩ := Option.ite_none_right_eq_some.mp h
      obtain rfl := Option.some.inj hand
      exact hs
    | afterAnd field negated low =>
      obtain ⟨v, hv, rfl⟩ := Option.map_eq_some_iff.mp h
      exact ⟨hs, isSpelled_of_leaf? ht hv⟩
    | afterIs field =>
      simp only [Partial.step?] at h
      split at h <;> cases h <;> trivial
    | afterIsNot field =>
      obtain ⟨-, hnull⟩ := Option.ite_none_right_eq_some.mp h
      obtain rfl := Option.some.inj hnull
      trivial

theorem mem_numeral_of_mem_numbers {p : Predicate} (h : p.IsSpelled) :
    ∀ e ∈ p.numbers, e.2 ∈ numeral := by
  cases p with
  | comparison left operator right => exact mem_numeral_of_comparison h.1 h.2.2
  | membership field negated items => exact mem_numeral_of_items h
  | range field negated low high =>
    exact mem_numeral_of_items (List.forall_mem_cons.mpr ⟨h.1, List.forall_mem_singleton.mpr h.2⟩)
  | _ => exact List.forall_mem_nil _

theorem keepsEntries :
    meaning.KeepsEntries Predicate.IsSpelled fun p => p.numbers.map numberEntry where
  predicate p hp := by
    cases p with
    | comparison left operator right =>
      exact reads_comparisonClause_numbers (by decide) hp.2.1 false left right
    | like field negated pattern =>
      have hpattern : (patternRule field negated pattern).Reads Rule.IsFlat := by
        unfold patternRule
        split
        · exact Result.reads_error trivial
        · exact Result.reads_error trivial
        · exact Result.reads_ok Rule.isFlat_of_text
      exact hpattern.map fun r hr => .rule hr (List.nil_sublist _)
    | membership field negated items =>
      exact reads_listRule_numbers (by cases negated <;> rfl) items
    | range field negated low high =>
      exact reads_listRule_numbers (by cases negated <;> rfl) [low, high]
    | nullCheck field negated =>
      exact Result.reads_ok (.rule Rule.isFlat_of_null (List.nil_sublist _))
  negation := Clause.Lists.reads_negate

end Sql

/-! ### Expression languages -/

namespace Expression

/-- The call of a text method is no comparison. -/
theorem reads_callRule_isFlat (dialect : Dialect) (name : String) (arguments : List Operand) :
    (callRule dialect name arguments).Reads Rule.IsFlat := by
  refine (reads_splitCall name).bind fun call _ => ?_
  refine (Operator.reads_unmapFrom _ _).bind fun op _ => ?_
  dsimp only
  split
  · exact Result.reads_error trivial
  · rename_i htext
    have hcomparison {P : Prop} (h : op.isComparison = true) : P := by
      rw [(Operator.of_isComparison h).2.2.2] at htext
      exact absurd rfl htext
    split
    · exact Result.reads_ok (Rule.isFlat_ofFields hcomparison)
    · exact Result.reads_ok (Rule.isFlat_of hcomparison)
    · exact Result.reads_fail _

end Expression

namespace Cel
open Expression

/-- The numbers that a field is compared with in a predicate. -/
def Predicate.numbers : Predicate → List (String × List Char)
  | .comparison left _ right => comparisonNumbers nameOf left right
  | .membership (.field f) items => itemNumbers (nameOf f) items
  | _ => []

/-- The numbers are spelled as numerals, and a sign of comparison is short. -/
def Predicate.IsSpelled : Predicate → Prop
  | .comparison left operator right => left.IsSpelled ∧ operator.length ≤ 2 ∧ right.IsSpelled
  | .membership _ items => ∀ v ∈ items, v.IsSpelled
  | .call _ _ => True

/-- What has been read of a predicate is spelled so. -/
def Partial.IsSpelled : Partial → Prop
  | .afterLeft v => v.IsSpelled
  | .afterSign left operator => left.IsSpelled ∧ operator.length ≤ 2
  | .inList _ items => ∀ v ∈ items.leaves, v.IsSpelled
  | _ => True

theorem isSpelled_afterLeft? {t : Token} (ht : lexicon.IsToken t) {v : Leaf} (hv : v.IsSpelled)
    {s : Partial} (h : Partial.afterLeft? v t = some s) : s.IsSpelled := by
  unfold Partial.afterLeft? at h
  split at h
  · rename_i hterminal
    obtain rfl := Option.some.inj h
    exact ⟨hv, length_le_of_comparator ht (by decide) hterminal⟩
  · obtain rfl := Option.some.inj h
    trivial
  · obtain rfl := Option.some.inj h
    trivial
  · cases h

/-- Every token keeps what has been read spelled so. -/
theorem makes_isSpelled : grammar.Makes Partial.IsSpelled Predicate.IsSpelled where
  start ht h := by
    obtain ⟨v, hv, rfl⟩ := Option.map_eq_some_iff.mp h
    exact isSpelled_of_leaf? ht hv
  step {t s next} ht hs h := by
    change s.step? t = some next at h
    cases s with
    | afterLeft v =>
      obtain ⟨s, hleft, rfl⟩ := Option.map_eq_some_iff.mp h
      exact isSpelled_afterLeft? ht hs hleft
    | afterSign left operator =>
      obtain ⟨v, hv, rfl⟩ := Option.map_eq_some_iff.mp h
      exact ⟨hs.1, hs.2, isSpelled_of_leaf? ht hv⟩
    | afterIn left =>
      obtain ⟨-, hopened⟩ := Option.ite_none_right_eq_some.mp h
      obtain rfl := Option.some.inj hopened
      exact List.forall_mem_nil _
    | inList left items =>
      obtain ⟨items, hitems, rfl⟩ := Option.map_eq_some_iff.mp h
      have hnext := Items.isSpelled_of_step? ht hs hitems
      cases items <;> exact hnext
    | inCall name arguments =>
      obtain ⟨arguments, -, rfl⟩ := Option.map_eq_some_iff.mp h
      cases arguments <;> trivial

theorem mem_numeral_of_mem_numbers {p : Predicate} (h : p.IsSpelled) :
    ∀ e ∈ p.numbers, e.2 ∈ numeral := by
  unfold Predicate.numbers
  split
  · exact mem_numeral_of_comparison h.1 h.2.2
  · exact mem_numeral_of_items h
  · exact List.forall_mem_nil _

theorem reads_negate_entries {entries : List (Value × Value)} {c : Clause}
    (h : c.Lists entries) : (negate c).Reads (Clause.Lists entries) := by
  unfold negate
  split
  · rename_i r
    split
    · -- the group has nothing but the rule in it
      have hrule : (Clause.rule r).Lists entries :=
        ⟨by simpa using h.sublist, by simpa [Clause.rules, Clause.turnRules] using h.flat⟩
      exact Result.reads_ok hrule.invertRule
    · exact h.reads_negate
  · exact h.reads_negate

theorem keepsEntries :
    meaning.KeepsEntries Predicate.IsSpelled fun p => p.numbers.map numberEntry where
  predicate p hp := by
    cases p with
    | comparison left operator right =>
      exact reads_comparisonClause_numbers (by decide) hp.2.1 true left right
    | membership left items =>
      cases left with
      | field f => exact reads_listRule_numbers rfl items
      | _ => exact Result.reads_fail _
    | call name arguments =>
      exact (reads_callRule_isFlat _ _ _).map fun r hr => .rule hr (List.nil_sublist _)
  negation := reads_negate_entries

end Cel

namespace Spel
open Expression

/-- The numbers that a field is compared with in a predicate. -/
def Predicate.numbers : Predicate → List (String × List Char)
  | .comparison left _ right => comparisonNumbers nameOf left right
  | .listCall items _ (.field f) => itemNumbers (nameOf f) items
  | _ => []

/-- The numbers are spelled as numerals, and a sign or a word of comparison is short. -/
def Predicate.IsSpelled : Predicate → Prop
  | .comparison left operator right => left.IsSpelled ∧ operator.length ≤ 2 ∧ right.IsSpelled
  | .listCall items _ _ => ∀ v ∈ items, v.IsSpelled
  | _ => True

/-- What has been read of a predicate is spelled so. -/
def Partial.IsSpelled : Partial → Prop
  | .afterLeft v => v.IsSpelled
  | .afterSign left operator => left.IsSpelled ∧ operator.length ≤ 2
  | .inList items => ∀ v ∈ items.leaves, v.IsSpelled
  | .afterList items => ∀ v ∈ items, v.IsSpelled
  | .afterDot items => ∀ v ∈ items, v.IsSpelled
  | .afterMethod items _ => ∀ v ∈ items, v.IsSpelled
  | .inListCall items _ => ∀ v ∈ items, v.IsSpelled
  | .afterArgument items _ _ => ∀ v ∈ items, v.IsSpelled
  | _ => True

theorem isSpelled_afterLeft? {t : Token} (ht : lexicon.IsToken t) {v : Leaf} (hv : v.IsSpelled)
    {s : Partial} (h : Partial.afterLeft? v t = some s) : s.IsSpelled := by
  unfold Partial.afterLeft? at h
  split at h
  · rename_i hterminal
    obtain rfl := Option.some.inj h
    exact ⟨hv, length_le_of_comparator ht (by decide) hterminal⟩
  · obtain rfl := Option.some.inj h
    trivial
  · rename_i k _ hterminal
    obtain ⟨hword, hsign⟩ := Option.ite_none_right_eq_some.mp h
    obtain rfl := Option.some.inj hsign
    have hshort : ∀ k ∈ comparisonWords, k.letters.length ≤ 2 := by decide
    exact ⟨hv, (length_of_keyword ht hterminal).trans_le (hshort k hword)⟩
  · obtain rfl := Option.some.inj h
    trivial
  · cases h

/-- Every token keeps what has been read spelled so. -/
theorem makes_isSpelled : grammar.Makes Partial.IsSpelled Predicate.IsSpelled where
  start {t s} ht h := by
    change Partial.start? t = some s at h
    unfold Partial.start? at h
    split at h
    · obtain rfl := Option.some.inj h
      exact List.forall_mem_nil _
    · obtain ⟨v, hv, rfl⟩ := Option.map_eq_some_iff.mp h
      exact isSpelled_of_leaf? ht hv
  step {t s next} ht hs h := by
    change s.step? t = some next at h
    cases s with
    | afterLeft v =>
      obtain ⟨s, hleft, rfl⟩ := Option.map_eq_some_iff.mp h
      exact isSpelled_afterLeft? ht hs hleft
    | afterSign left operator =>
      obtain ⟨v, hv, rfl⟩ := Option.map_eq_some_iff.mp h
      exact ⟨hs.1, hs.2, isSpelled_of_leaf? ht hv⟩
    | afterMatches left =>
      obtain ⟨v, -, rfl⟩ := Option.map_eq_some_iff.mp h
      trivial
    | inCall name arguments =>
      obtain ⟨arguments, -, rfl⟩ := Option.map_eq_some_iff.mp h
      cases arguments <;> trivial
    | inList items =>
      obtain ⟨items, hitems, rfl⟩ := Option.map_eq_some_iff.mp h
      have hnext := Items.isSpelled_of_step? ht hs hitems
      cases items <;> exact hnext
    | inListCall items method =>
      obtain ⟨v, -, rfl⟩ := Option.map_eq_some_iff.mp h
      exact hs
    | afterList items | afterDot items | afterMethod items method
    | afterArgument items method argument =>
      -- the items stay what they are up to the closing parenthesis
      obtain ⟨-, hmark⟩ := Option.ite_none_right_eq_some.mp h
      obtain rfl := Option.some.inj hmark
      exact hs

theorem mem_numeral_of_mem_numbers {p : Predicate} (h : p.IsSpelled) :
    ∀ e ∈ p.numbers, e.2 ∈ numeral := by
  unfold Predicate.numbers
  split
  · exact mem_numeral_of_comparison h.1 h.2.2
  · exact mem_numeral_of_items h
  · exact List.forall_mem_nil _

/-- A pattern is a text. -/
theorem reads_rule_isFlat (dialect pattern : Value) (field : String) :
    (Pattern.rule dialect (.text field) pattern).Reads Rule.IsFlat := by
  unfold Pattern.rule
  split
  · split
    · exact Result.reads_ok Rule.isFlat_of_text
    · exact Result.reads_error trivial
  · exact Result.reads_error trivial

theorem keepsEntries :
    meaning.KeepsEntries Predicate.IsSpelled fun p => p.numbers.map numberEntry where
  predicate p hp := by
    cases p with
    | comparison left operator right =>
      exact reads_comparisonClause_numbers (by decide) hp.2.1 true left right
    | matching left right =>
      change Result.Reads _ (predicateClause (.matching left right))
      rw [predicateClause]
      split
      · exact (reads_rule_isFlat _ _ _).map fun r hr => .rule hr (List.nil_sublist _)
      · exact Result.reads_error trivial
    | call name arguments =>
      exact (reads_callRule_isFlat _ _ _).map fun r hr => .rule hr (List.nil_sublist _)
    | listCall items method argument =>
      change Result.Reads _ (predicateClause (.listCall items method argument))
      rw [predicateClause]
      split
      · exact Result.reads_error trivial
      · cases argument with
        | field f => exact reads_listRule_numbers rfl items
        | _ => exact Result.reads_fail _
  negation := Clause.Lists.reads_negate

end Spel

/-! ### Languages with numbers -/

/-- A language that is read by its grammar and the meaning of its predicates. -/
structure NumberSyntax where
  {State Predicate : Type}
  dialect : Dialect
  grammar : Grammar State Predicate
  meaning : Meaning Predicate
  traits : SourceTraits
  /-- The numbers that a field is compared with in a predicate. -/
  numbers : Predicate → List (String × List Char)

namespace NumberSyntax

def sql : NumberSyntax := ⟨.sql, Sql.grammar, Sql.meaning, Sql.traits, Sql.Predicate.numbers⟩

def cel : NumberSyntax :=
  ⟨.cel, Cel.grammar, Cel.meaning, Expression.traits, Cel.Predicate.numbers⟩

def spel : NumberSyntax :=
  ⟨.spel, Spel.grammar, Spel.meaning, Expression.traits, Spel.Predicate.numbers⟩

def all : List NumberSyntax := [sql, cel, spel]

/-- The numbers of a formula from left to right, each with the field that is compared with it. -/
def formulaNumbers (t : NumberSyntax) (f : Formula t.Predicate) : List (String × List Char) :=
  f.predicates.flatMap t.numbers

/-- The tree of the clause of a source. -/
def read (t : NumberSyntax) : Query.Reader := fun plan source => do
  Clause.toTree t.traits plan (← readText t.grammar t.meaning t.dialect source)

/-- The language is read so, and what tokens make of predicates is such that clauses have their
numbers. -/
structure IsSound (t : NumberSyntax) : Prop where
  reader : (t.dialect.name, t.read) ∈ Query.readers
  predicates : ∃ I Q, t.grammar.Makes I Q ∧
    t.meaning.KeepsEntries Q (fun p => (t.numbers p).map numberEntry) ∧
    ∀ p, Q p → ∀ e ∈ t.numbers p, e.2 ∈ numeral

theorem isSound_of_mem {t : NumberSyntax} (h : t ∈ all) : t.IsSound := by
  simp only [all, List.mem_cons, List.not_mem_nil, or_false] at h
  rcases h with rfl | rfl | rfl
  · exact ⟨show ("sql", Sql.read) ∈ Query.readers by simp [Query.readers],
      _, _, Sql.makes_isSpelled, Sql.keepsEntries, fun _ => Sql.mem_numeral_of_mem_numbers⟩
  · exact ⟨show ("cel", Cel.read) ∈ Query.readers by simp [Query.readers],
      _, _, Cel.makes_isSpelled, Cel.keepsEntries, fun _ => Cel.mem_numeral_of_mem_numbers⟩
  · exact ⟨show ("spel", Spel.read) ∈ Query.readers by simp [Query.readers],
      _, _, Spel.makes_isSpelled, Spel.keepsEntries, fun _ => Spel.mem_numeral_of_mem_numbers⟩

/-- The tree of a source has its numbers, as the policy reads them. -/
theorem IsSound.numbers_of_toTree {t : NumberSyntax} (h : t.IsSound) {plan : ParsePlan}
    (hlists : plan.listsAsArrays = true) {source : List Char} {f : Formula t.Predicate}
    (hread : readFormula t.grammar t.dialect source = .ok f) {c : Clause}
    (hclause : t.meaning.formula f = .ok c) {tree : Node}
    (htree : Clause.toTree t.traits plan (some c) = .ok tree) :
    (∀ e ∈ t.formulaNumbers f, e.2 ∈ numeral) ∧
      ((t.formulaNumbers f).map fun e =>
        (Value.text e.1, (numberValue e.2).withNumbers plan.policy)).Sublist tree.entries := by
  obtain ⟨I, Q, hmakes, hmeaning, hnumbers⟩ := h.predicates
  have hall := hmakes.of_readFormula hread
  refine ⟨List.forall_mem_flatMap.mpr fun p hp => hnumbers p (hall p hp), ?_⟩
  have hlisted := (hmeaning.term _ hall).gives c hclause
  have hsublist := hlisted.sublist.map (Prod.map id (Value.withNumbers plan.policy))
  rw [← Clause.entries_of_toTree hlists hlisted.flat htree, ← List.map_flatMap,
    List.map_map] at hsublist
  exact hsublist

/-- The numbers of a source that is read are found in its tree. -/
theorem IsSound.numbers_of_parse {t : NumberSyntax} (h : t.IsSound) {dialect : Value}
    {read : Query.Reader} (hdialect : Query.reader dialect = .ok (t.dialect.name, read))
    {input : OptionsInput ParseOptions} {overrides : List (String × OptionValue)}
    {o : ParseOptions} {plan : ParsePlan} (hbuild : ParseOptions.build input overrides = .ok o)
    (hplan : o.resolve = .ok plan) (hlists : o.listsAsArrays.truthy = true) {source : String}
    {tree : Node}
    (hparse : Query.parse (.value (.text source)) dialect input overrides = .ok tree) :
    (trimBoth source.toList).isEmpty = true ∨
      ∃ f, readFormula t.grammar t.dialect source.toList = .ok f ∧
        (∀ e ∈ t.formulaNumbers f, e.2 ∈ numeral) ∧
        ((t.formulaNumbers f).map fun e =>
          (Value.text e.1, (numberValue e.2).withNumbers plan.policy)).Sublist tree.entries := by
  obtain ⟨-, -, -, -, hplanLists⟩ := ParseOptions.of_resolve hplan
  -- the readers have different names
  have hnames : (Query.readers.map Prod.fst).Nodup := by decide
  obtain rfl : read = t.read := (Prod.mk.inj
    (List.inj_on_of_nodup_map hnames (Query.mem_readers hdialect) h.reader rfl)).2
  rw [Query.parse_eq_readSource hdialect hbuild hplan] at hparse
  obtain ⟨root, hroot, htree⟩ := Result.bind_eq_ok hparse
  unfold readText at hroot
  dsimp only at hroot
  split at hroot
  · exact Or.inl ‹_›
  · obtain ⟨f, hread, hroot⟩ := Result.bind_eq_ok hroot
    obtain ⟨c, hclause, hroot⟩ := Result.bind_eq_ok hroot
    obtain rfl := Except.ok.inj hroot
    exact Or.inr ⟨f, hread,
      h.numbers_of_toTree (hplanLists.trans hlists) hread hclause htree⟩

/-- **Numbers.**  A number token is a numeral.  Its value is a number if there are digits on the
right of every point, and an integer if there is neither a point nor an exponent; else it is the
text of the numeral, which only the looser policies take for a number.  Whatever source is read,
the numbers in it that a field is compared with have these values in the rules of the tree, where
lists are kept. -/
theorem parse_numbers {t : NumberSyntax} (ht : t ∈ all) :
    (∀ w ∈ numeral,
      ((numberValue w).isNumber = true ↔ w ∈ completeNumeral) ∧
      (w ∉ completeNumeral → numberValue w = .text (String.ofList w)) ∧
      ((∃ n, numberValue w = .int n) ↔ w ∈ integer) ∧
      ∀ policy : NumberPolicy, ((numberValue w).withNumbers policy).isNumber = true ↔
        w ∈ completeNumeral ∨ policy = .enhanced ∨ policy = .always) ∧
    ∀ (dialect : Value) (read : Query.Reader) (input : OptionsInput ParseOptions)
      (overrides : List (String × OptionValue)) (o : ParseOptions) (plan : ParsePlan)
      (source : String) (tree : Node), Query.reader dialect = .ok (t.dialect.name, read) →
      ParseOptions.build input overrides = .ok o → o.resolve = .ok plan →
      o.listsAsArrays.truthy = true →
      Query.parse (.value (.text source)) dialect input overrides = .ok tree →
      (trimBoth source.toList).isEmpty = true ∨
        ∃ f, readFormula t.grammar t.dialect source.toList = .ok f ∧
          (∀ e ∈ t.formulaNumbers f, e.2 ∈ numeral) ∧
          ((t.formulaNumbers f).map fun e =>
            (Value.text e.1, (numberValue e.2).withNumbers plan.policy)).Sublist tree.entries := by
  constructor
  · exact fun w hw => ⟨numberValue_isNumber_iff hw, numberValue_eq_text hw, exists_int_iff hw,
      fun policy => isNumber_withNumbers_iff policy hw⟩
  · intro dialect read input overrides o plan source tree hdialect hbuild hplan hlists hparse
    exact (isSound_of_mem ht).numbers_of_parse hdialect hbuild hplan hlists hparse

/-- The bounds of `a between -2 and 7`, which are complete numerals. -/
theorem parse_numbers_range :
    sql ∈ all ∧ ['-', '2'] ∈ numeral ∧ (numberValue ['-', '2']).isNumber = true ∧
    ∃ tree, Query.parse (.value (.text "a between -2 and 7")) (.text "sql") .defaults
        [("lists_as_arrays", .plain (.bool true))] = .ok tree ∧
      [(Value.text "a", Value.int (-2)), (.text "a", .int 7)].Sublist tree.entries := by
  have hdialect : Query.reader (.text "sql") = .ok (sql.dialect.name, sql.read) := rfl
  have hbuild : ParseOptions.build .defaults [("lists_as_arrays", .plain (.bool true))] =
      .ok { listsAsArrays := .bool true } := rfl
  have hplan : ({ listsAsArrays := .bool true } : ParseOptions).resolve =
      .ok { listsAsArrays := true } := rfl
  have hsource : "a between -2 and 7".toList = ['a', ' ', 'b', 'e', 't', 'w', 'e', 'e', 'n', ' ',
      '-', '2', ' ', 'a', 'n', 'd', ' ', '7'] := rfl
  have hread : readFormula sql.grammar sql.dialect "a between -2 and 7".toList =
      .ok ⟨.predicate (.range ⟨false, ['a']⟩ false (.number ['-', '2']) (.number ['7'])), []⟩ := by
    rw [hsource]
    exact readFormula_eq_ok_iff.mpr ⟨_, .token rfl rfl rfl (.token rfl rfl rfl (.token rfl rfl rfl
      (.token rfl rfl rfl (.token rfl rfl rfl (.atEnd rfl))))), rfl⟩
  have hnumeral : ['-', '2'] ∈ numeral := mem_numeral.mpr ⟨_, Numeral.read?_eq_some_nil_iff.mp rfl⟩
  have hcomplete : ['-', '2'] ∈ completeNumeral :=
    mem_completeNumeral.mpr ⟨_, Numeral.read?_eq_some_nil_iff.mp rfl, by nofun⟩
  have hall : sql ∈ all := List.mem_cons_self
  obtain ⟨hvalues, htrees⟩ := parse_numbers hall
  refine ⟨hall, hnumeral, (hvalues _ hnumeral).1.mpr hcomplete, ?_⟩
  have hparse : Query.parse (.value (.text "a between -2 and 7")) (.text "sql") .defaults
      [("lists_as_arrays", .plain (.bool true))] =
        .ok (.group (.text "and") {} [.rule (Rule.of "a" .between (.list [.int (-2), .int 7]))]) := by
    rw [Query.parse_eq_readSource hdialect hbuild hplan]
    change (readText sql.grammar sql.meaning sql.dialect _ >>= _) = _
    rw [readText, if_neg (by decide), hread]
    rfl
  refine ⟨_, hparse, ?_⟩
  rcases htrees _ _ _ _ _ _ _ _ hdialect hbuild hplan rfl hparse with
    hblank | ⟨f, hf, -, hsublist⟩
  · cases hblank
  · obtain rfl := Except.ok.inj (hread.symm.trans hf)
    exact hsublist

/-- In `a = 5.` a numeral that ends with its point is read, and the field is compared with its
text. -/
theorem parse_numbers_trailing_point :
    ['5', '.'] ∈ numeral ∧ (numberValue ['5', '.']).isNumber = false ∧
      Query.parse (.value (.text "a = 5.")) (.text "sql") .defaults
        [("lists_as_arrays", .plain (.bool true))] =
          .ok (.group (.text "and") {} [.rule (Rule.of "a" .eq (.text "5."))]) := by
  refine ⟨mem_numeral.mpr ⟨_, Numeral.read?_eq_some_nil_iff.mp rfl⟩, by decide, ?_⟩
  have hdialect : Query.reader (.text "sql") = .ok ("sql", Sql.read) := rfl
  have hplan : ({ listsAsArrays := .bool true } : ParseOptions).resolve =
      .ok { listsAsArrays := true } := rfl
  have hsource : "a = 5.".toList = ['a', ' ', '=', ' ', '5', '.'] := rfl
  have hread : readFormula Sql.grammar .sql "a = 5.".toList =
      .ok ⟨.predicate (.comparison (.field ⟨false, ['a']⟩) ['='] (.number ['5', '.'])), []⟩ := by
    rw [hsource]
    exact readFormula_eq_ok_iff.mpr ⟨_, .token rfl rfl rfl (.token rfl rfl rfl (.token rfl rfl rfl
      (.atEnd rfl))), rfl⟩
  rw [Query.parse_eq_readSource hdialect rfl hplan]
  change Sql.read _ _ = _
  rw [Sql.read, readText, if_neg (by decide), hread]
  rfl

end NumberSyntax
end RuleTree
