import RuleTree.Proofs.Predicates
import RuleTree.Proofs.ReadLiterals
import RuleTree.Source.Reading

/-! # Literals of comparisons

The clause of a comparison has the literal of it, with the field that the literal is compared with
(`Clause.reads_comparisonClause_entries`), and the clause of a list or a range has its items
(`Clause.reads_listRule_entries`).  What a comparison can be spelled by in a text language is short,
and the methods that match texts have longer names (`Operator.reads_sign`).

Terms have the literals of their predicates: negating a clause and putting it in a group with
others take none away (`Meaning.KeepsEntries.term`).
-/
namespace RuleTree
open Source

/-! ### Signs -/

theorem Text.length_lowerFrom_le (before cs : List Char) :
    (lowerFrom before cs).length ≤ 2 * cs.length := by
  induction cs generalizing before with
  | nil => exact Nat.le_refl 0
  | cons c cs ih =>
    have hrest := ih (c :: before)
    rw [lowerFrom, List.length_append, List.length_cons]
    split
    · simp only [List.length_cons, List.length_nil]
      omega
    · split
      · simp only [List.length_singleton]
        omega
      · simp only [List.length_singleton]
        omega

theorem Text.length_trimBoth_le (cs : List Char) : (trimBoth cs).length ≤ cs.length := by
  rw [trimBoth, trimEnd, trimStart, List.length_reverse]
  refine (Text.length_dropWhile_le _ _).trans ?_
  rw [List.length_reverse]
  exact Text.length_dropWhile_le _ _

/-- Trimming and lower case make a text no longer than its characters with a mark on each. -/
theorem Text.length_lower_trim_le (cs : List Char) :
    (lower (trim (String.ofList cs))).toList.length ≤ 2 * cs.length := by
  have hlower := length_lowerFrom_le [] (trimBoth cs)
  have htrim := length_trimBoth_le cs
  rw [lower, trim, String.toList_ofList, String.toList_ofList, String.toList_ofList]
  omega

/-- The dialects that are texts. -/
def Dialect.texts : List Dialect := [.sql, .cel, .spel]

/-- A short spelling is one of a comparison. -/
theorem Dialect.isComparison_of_operator? {d : Dialect} (hd : d ∈ texts) {sign : List Char}
    (hshort : sign.length ≤ 2) {op : Operator} (h : d.operator? (String.ofList sign) = some op) :
    op.isComparison = true := by
  unfold operator? at h
  extract_lets key at h
  have hlength : key.toList.length ≤ 2 * sign.length := Text.length_lower_trim_le sign
  clear_value key
  obtain ⟨entry, hfound, rfl⟩ := Option.map_eq_some_iff.mp h
  have hentry := List.find?_some hfound
  have hkey : entry.1.toList.length ≤ 4 := by
    rw [beq_iff_eq.mp hentry]
    omega
  have hall : ∀ d ∈ texts, ∀ e ∈ d.operators, e.1.toList.length ≤ 4 → e.2.isComparison = true := by
    decide
  exact hall d hd entry (List.mem_of_find?_eq_some hfound) hkey

theorem Operator.reads_sign {d : Dialect} (hd : d ∈ Dialect.texts) {sign : List Char}
    (hshort : sign.length ≤ 2) :
    (unmapFrom (.text (String.ofList sign)) (.text d.name)).Reads
      fun op => op.isComparison = true := by
  refine ⟨fun op hop => ?_, (reads_unmapFrom _ _).refuses⟩
  have hdialect : Dialect.ofValue? (.text d.name) = .ok (some d) := by cases d <;> rfl
  unfold unmapFrom at hop
  obtain ⟨given, hgiven, hop⟩ := Result.bind_eq_ok hop
  obtain rfl := Except.ok.inj (hdialect.symm.trans hgiven)
  obtain ⟨-, -, hop⟩ := Result.bind_eq_ok hop
  split at hop
  · rename_i found hfound
    obtain rfl := Except.ok.inj hop
    exact Dialect.isComparison_of_operator? hd hshort hfound
  · cases hop

/-! ### Rules -/

namespace Operand

/-- The value of a literal. -/
def literal? : Operand → Option Value
  | .field _ => none
  | .literal v => some v

/-- A literal is one value. -/
def IsScalar (o : Operand) : Prop := ∀ items, o ≠ .literal (.list items)

end Operand

theorem Source.Leaf.isScalar_operand {name : FieldName → String} {text : List Char → List Char}
    (v : Leaf) : (v.operand name text).IsScalar := by
  intro items
  cases v with
  | number w =>
    intro h
    exact Value.withNumbers_ne_list .strict (v := .text (String.ofList w)) nofun items
      (Operand.literal.inj h)
  | _ => nofun

namespace Rule
variable {field : String} {op : Operator} {v : Value}

theorem isFlat_of (h : op.isComparison = true → ∀ items, v ≠ .list items) :
    (Rule.of field op v).IsFlat := by
  refine ⟨⟨field, rfl⟩, fun op' hop' => ?_⟩
  obtain rfl := Option.some.inj ((Operator.ofValue?_toValue op).symm.trans hop')
  exact h

theorem isFlat_of_null : (Rule.of field op .null).IsFlat :=
  isFlat_of fun _ _ h => by cases h

theorem isFlat_of_text {s : String} : (Rule.of field op (.text s)).IsFlat :=
  isFlat_of fun _ _ h => by cases h

theorem isFlat_ofFields (h : op.isComparison = true → ∀ items, v ≠ .list items) :
    (Rule.ofFields field op v).IsFlat := by
  refine ⟨⟨field, rfl⟩, fun op' hop' => ?_⟩
  obtain rfl := Option.some.inj ((Operator.ofValue?_toValue op).symm.trans hop')
  exact h

theorem entries_of (htext : op.isTextMatch = false) :
    (Rule.of field op v).entries = match v with
      | .list items => items.map fun item => (.text field, item)
      | v => [(.text field, v)] := by
  have hnumbers : Clause.readsNumbers (Rule.of field op v) = true :=
    Clause.readsNumbers_eq (Operator.ofValue?_toValue op) htext
  rw [entries, literals, hnumbers, if_pos rfl]
  cases v <;> rfl

@[simp] theorem entries_ofFields : (Rule.ofFields field op v).entries = [] := rfl

end Rule

namespace Clause

/-- The literal that a field is compared with, and the field. -/
def compared : Operand → Operand → List (Value × Value)
  | .field f, .literal v => [(.text f, v)]
  | .literal v, .field f => [(.text f, v)]
  | _, _ => []

/-- The literals of a list that a field is compared with, and the field. -/
def listed (field : String) (operands : List Operand) : List (Value × Value) :=
  (operands.filterMap Operand.literal?).map fun v => (.text field, v)

/-- A check for null has that literal too. -/
theorem comparison.entries_against (nullChecks : Bool) (field : String) {op : Operator} {v : Value}
    (hop : op.isComparison = true) (hv : ∀ items, v ≠ .list items) :
    (against nullChecks field op v).IsFlat ∧
      (against nullChecks field op v).entries = [(.text field, v)] := by
  unfold against
  split
  · exact ⟨Rule.isFlat_of_null, Rule.entries_of rfl⟩
  · exact ⟨Rule.isFlat_of_null, Rule.entries_of rfl⟩
  · refine ⟨Rule.isFlat_of fun _ => hv, ?_⟩
    rw [Rule.entries_of (Operator.of_isComparison hop).2.2.2]
    split
    · exact absurd rfl (hv _)
    · rfl

theorem reads_comparison_entries {left right : Operand} {op : Operator} (nullChecks : Bool)
    (hop : op.isComparison = true) (hleft : left.IsScalar) (hright : right.IsScalar) :
    (comparison left op right nullChecks).Reads
      fun r => r.IsFlat ∧ r.entries = compared left right := by
  cases left with
  | field f =>
    cases right with
    | field g => exact Result.reads_ok ⟨Rule.isFlat_ofFields (fun _ _ h => by cases h), rfl⟩
    | literal v =>
      refine Result.reads_ok (comparison.entries_against _ f hop fun items h => ?_)
      exact hright items (h ▸ rfl)
  | literal v =>
    cases right with
    | field f =>
      have hflipped : (op.flipped?.getD op).isComparison = true := by
        cases op <;> first | rfl | cases hop
      refine Result.reads_ok (comparison.entries_against _ f hflipped fun items h => ?_)
      exact hleft items (h ▸ rfl)
    | literal w => exact Result.reads_fail _

theorem literal?_of_literals {operands : List Operand} {values : List Value}
    (h : literals operands = some values) : operands.filterMap Operand.literal? = values := by
  fun_induction literals operands generalizing values with
  | case1 => exact Option.some.inj h
  | case2 v rest ih =>
    obtain ⟨values, hvalues, rfl⟩ := Option.map_eq_some_iff.mp h
    exact congrArg (v :: ·) (ih hvalues)
  | case3 => cases h

theorem literal?_of_fieldNames {operands : List Operand} {names : List String}
    (h : fieldNames operands = some names) : operands.filterMap Operand.literal? = [] := by
  fun_induction fieldNames operands generalizing names with
  | case1 => rfl
  | case2 f rest ih =>
    obtain ⟨names, hnames, -⟩ := Option.map_eq_some_iff.mp h
    exact ih hnames
  | case3 => cases h

/-- All the operands are literals, or all are fields, or there is no rule. -/
theorem reads_listRule_entries (field : String) {op : Operator} (operands : List Operand)
    (hmulti : op.isMulti = true) : (listRule field op operands).Reads
      fun r => r.IsFlat ∧ r.entries = listed field operands := by
  have hcomparison {P : Prop} (h : op.isComparison = true) : P := by
    rw [Operator.isMulti_of_isComparison h] at hmulti
    cases hmulti
  have htext : op.isTextMatch = false := by cases op <;> first | rfl | cases hmulti
  unfold listRule
  split
  · rename_i values _ hvalues
    refine Result.reads_ok ⟨Rule.isFlat_of hcomparison, ?_⟩
    rw [Rule.entries_of htext, listed, literal?_of_literals hvalues]
  · rename_i names _ hnames
    refine Result.reads_ok ⟨Rule.isFlat_ofFields hcomparison, ?_⟩
    rw [Rule.entries_ofFields, listed, literal?_of_fieldNames hnames]
    rfl
  · exact Result.reads_fail _

/-! ### Clauses -/

/-- The literals of the clause are among others these, in order, and its rules are flat. -/
structure Lists (entries : List (Value × Value)) (c : Clause) : Prop where
  sublist : entries.Sublist c.entries
  flat : ∀ r ∈ c.rules, r.IsFlat

variable {entries : List (Value × Value)} {c : Clause} {r : Rule}

theorem Lists.mono {fewer : List (Value × Value)} (h : c.Lists entries)
    (hfewer : fewer.Sublist entries) : c.Lists fewer :=
  ⟨hfewer.trans h.sublist, h.flat⟩

theorem Lists.rule (hflat : r.IsFlat) (h : entries.Sublist r.entries) :
    (Clause.rule r).Lists entries := by
  refine ⟨by rwa [entries_rule], ?_⟩
  rw [rules]
  exact List.forall_mem_singleton.mpr hflat

theorem reads_comparisonClause_entries {d : Dialect} (hd : d ∈ Dialect.texts) {sign : List Char}
    (hshort : sign.length ≤ 2) (nullChecks : Bool) {left right : Operand}
    (hleft : left.IsScalar) (hright : right.IsScalar) :
    (comparisonClause d nullChecks left (String.ofList sign) right).Reads
      (Lists (compared left right)) := by
  refine (Operator.reads_sign hd hshort).bind fun op hop => ?_
  split
  · split
    · exact Result.reads_ok ⟨List.Sublist.refl _, nofun⟩
    · exact Result.reads_fail _
  · refine (reads_comparison_entries nullChecks hop hleft hright).bind fun r hr => ?_
    exact Result.reads_ok (.rule hr.1 (hr.2 ▸ List.Sublist.refl _))

/-- The complement of a rule has what the rule has. -/
theorem Lists.invertRule (h : (Clause.rule r).Lists entries) :
    (Clause.rule (Clause.invertRule r)).Lists entries := by
  have hr : r.IsFlat := h.flat r (by rw [rules]; exact List.mem_singleton_self r)
  have hsublist := h.sublist
  rw [entries_rule, ← entries_invertRule] at hsublist
  exact .rule hr.invert hsublist

/-- Negating a clause takes no literal away. -/
theorem Lists.reads_negate (h : c.Lists entries) : c.negate.Reads (Lists entries) := by
  cases c with
  | rule r => exact Result.reads_ok h.invertRule
  | constant => exact Result.reads_fail _
  | empty negated => exact Result.reads_ok ⟨h.sublist, h.flat⟩
  | group negated head tail => exact Result.reads_ok ⟨h.sublist, h.flat⟩

end Clause

/-! ### Terms -/

namespace Source
variable {P : Type}

/-- The predicates with a property mean clauses with their literals, and negations keep them. -/
structure Meaning.KeepsEntries (m : Meaning P) (Q : P → Prop)
    (entries : P → List (Value × Value)) : Prop where
  predicate (p : P) : Q p → (m.predicate p).Reads (Clause.Lists (entries p))
  negation {es : List (Value × Value)} {c : Clause} : c.Lists es →
    (m.negation c).Reads (Clause.Lists es)

variable {m : Meaning P} {Q : P → Prop} {entries : P → List (Value × Value)}

mutual
/-- **Literals of terms.**  The clause of a term has the literals of its predicates. -/
theorem Meaning.KeepsEntries.term (h : m.KeepsEntries Q entries) : ∀ t : Term P,
    (∀ p ∈ t.predicates, Q p) → (m.term t).Reads (Clause.Lists (t.predicates.flatMap entries))
  | .predicate p, hp => by
    rw [Term.predicates, List.flatMap_singleton]
    exact h.predicate p (hp p (by rw [Term.predicates]; exact List.mem_singleton_self p))
  | .negation t, hp => (term h t hp).bind fun _ => h.negation
  | .group head tail, hp => by
    rw [Term.predicates] at hp ⊢
    obtain ⟨hhead, htail⟩ := List.forall_mem_append.mp hp
    refine (term h head hhead).bind fun first hfirst => ?_
    refine (terms h tail htail).bind fun rest hrest => Result.reads_ok ⟨?_, ?_⟩
    · rw [List.flatMap_append, Clause.entries_group]
      exact hfirst.sublist.append hrest.1
    · rw [Clause.rules_group]
      exact List.forall_mem_append.mpr ⟨hfirst.flat, List.forall_mem_flatMap.mpr hrest.2⟩

theorem Meaning.KeepsEntries.terms (h : m.KeepsEntries Q entries) :
    ∀ ts : List (Junction × Term P), (∀ p ∈ Term.turnPredicates ts, Q p) →
      (m.terms ts).Reads fun clauses =>
        ((Term.turnPredicates ts).flatMap entries).Sublist
            (clauses.flatMap fun e => e.2.entries) ∧
          ∀ e ∈ clauses, ∀ r ∈ e.2.rules, r.IsFlat
  | [], _ => Result.reads_ok ⟨List.Sublist.refl _, by simp⟩
  | (_, t) :: rest, hp => by
    rw [Term.turnPredicates] at hp ⊢
    obtain ⟨ht, hrest⟩ := List.forall_mem_append.mp hp
    refine (term h t ht).bind fun c hc => ?_
    refine (terms h rest hrest).bind fun clauses hclauses => Result.reads_ok ⟨?_, ?_⟩
    · rw [List.flatMap_append, List.flatMap_cons]
      exact hc.sublist.append hclauses.1
    · exact List.forall_mem_cons.mpr ⟨hc.flat, hclauses.2⟩
end

end Source
end RuleTree
