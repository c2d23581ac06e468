import Mathlib.Data.List.Nodup
import RuleTree.Proofs.Valuation
import RuleTree.Query

/-! # What documents say

A MongoDB document is the conjunction of its entries, an `$or` holds where one of
its documents does, a `$nor` where none does and a `$not` where its document does
not; a document without entries holds, and so does the expression `true`
(`Mongo.documentHolds`).

The tree of a document says the same (`Query.parse_document`), with one proviso.  A
document that says nothing leaves no clause.  That is sound in a conjunction; but
where such a document is negated, or is one of several alternatives, it is lost
(`Mongo.Loses`), and with it that the negation never holds, or that the alternatives
always do (`Query.parse_document_lost`).
-/
namespace RuleTree

/-! ### Clauses -/

namespace Clause
variable {V : Valuation}

/-- The truth value of members with one junction between them. -/
def joined (junction : Junction) (members : List Bool) : Bool :=
  match junction with
  | .and => members.all id
  | .or => members.any id

theorem flat_uniform (junction : Junction) (b : Bool) (members : List Bool) :
    flat b (members.map fun m => (junction, m)) = joined junction (b :: members) := by
  induction members generalizing b with
  | nil => cases junction <;> simp [flat, joined]
  | cons m members ih =>
    cases junction with
    | and =>
      rw [List.map_cons, flat, ih]
      simp [joined, Bool.and_assoc]
    | or =>
      rw [List.map_cons, flat, ih]
      simp [joined]

theorem turnTruths_map (junction : Junction) (cs : List Clause) :
    turnTruths V (cs.map fun c => (junction, c)) =
      (cs.map (truth V)).map fun b => (junction, b) := by
  induction cs with
  | nil => rfl
  | cons c cs ih => rw [List.map_cons, turnTruths, ih, List.map_cons, List.map_cons]

/-- A group with one junction holds as its members do under it. -/
theorem truth_join (junction : Junction) (negated : Bool) {cs : List Clause} (hne : cs ≠ []) :
    truth V (join junction negated cs) = (negated ^^ joined junction (cs.map (truth V))) := by
  obtain ⟨head, rest, rfl⟩ := List.exists_cons_of_ne_nil hne
  rw [join, truth, turnTruths_map, flat_uniform, List.map_cons]

theorem isPlain_join (junction : Junction) (negated : Bool) {cs : List Clause}
    (h : ∀ c ∈ cs, c.IsPlain) : (join junction negated cs).IsPlain := by
  cases cs with
  | nil => exact .empty negated
  | cons head rest =>
    obtain ⟨hhead, hrest⟩ := List.forall_mem_cons.mp h
    exact .group hhead (List.forall_mem_map.mpr hrest)

/-- A plain clause has a plain complement. -/
theorem IsPlain.exists_negate {c : Clause} (hc : c.IsPlain) :
    ∃ d, c.negate = .ok d ∧ d.IsPlain ∧ ∀ V : Valuation, truth V d = !truth V c := by
  cases hc with
  | @rule r op hop =>
    have hinverse : (invertRule r).operator? = some op.inverse := by
      rw [invertRule, hop]
      exact Operator.ofValue?_toValue op.inverse
    exact ⟨_, rfl, .rule hinverse, fun V => by rw [truth, truth, V.rule_invertRule hop]⟩
  | empty negated => exact ⟨_, rfl, .empty _, fun V => by rw [truth, truth, Bool.not_xor]⟩
  | group hhead htail =>
    exact ⟨_, rfl, .group hhead htail, fun V => by rw [truth, truth, Bool.not_xor]⟩

end Clause

namespace Mongo

/-! ### Truth -/

section
variable (V : Valuation)

/-- Whether an operator other than a negation holds of a field. -/
def operatorHolds (field key : String) (v : Value) : Bool :=
  let holds := V.holds (.text field) .value
  match key, v with
  | "$eq", v => holds .eq v
  | "$ne", .null => holds .notNull .null
  | "$ne", v => holds .ne v
  | "$lt", v => holds .lt v
  | "$gt", v => holds .gt v
  | "$lte", v => holds .le v
  | "$gte", v => holds .ge v
  | "$in", v => holds .isIn v
  | "$nin", v => holds .notIn v
  | "$exists", v => holds (if v.truthy then .notNull else .null) .null
  | _, _ => true

mutual
/-- Whether what a value asks of a field holds: all the operators of an object that
has some, and equality with any other value. -/
def conditionHolds (field : String) : Value → Bool
  | .map entries =>
    if entries.any fun e => isOperatorKey e.1 then operatorsHold field entries
    else V.holds (.text field) .value .eq (.map entries)
  | .null => V.holds (.text field) .value .null .null
  | v => V.holds (.text field) .value .eq v

/-- Whether all operators hold of a field. -/
def operatorsHold (field : String) : List (String × Value) → Bool
  | [] => true
  | (key, v) :: rest =>
    (if key = "$not" then !conditionHolds field v else operatorHolds V field key v)
      && operatorsHold field rest
end

mutual
/-- Whether a document holds: all its entries do. -/
def documentHolds : List (String × Value) → Bool
  | [] => true
  | (key, v) :: rest =>
    (if key = "$and" then (itemsHold v).all id
      else if key = "$or" then (itemsHold v).any id
      else if key = "$nor" then !(itemsHold v).any id
      else if key = "$not" then !itemHolds v
      else if key = "$expr" then true
      else conditionHolds V key v) && documentHolds rest

/-- Whether a value holds as a document; only objects do. -/
def itemHolds : Value → Bool
  | .map entries => documentHolds entries
  | _ => false

/-- Whether the documents in a list hold. -/
def itemsHold : Value → List Bool
  | .list items => eachHolds items
  | _ => []

/-- Whether documents hold. -/
def eachHolds : List Value → List Bool
  | [] => []
  | v :: rest => itemHolds v :: eachHolds rest
end

theorem operatorsHold_eq_all (field : String) (entries : List (String × Value)) :
    operatorsHold V field entries = entries.all fun e => operatorsHold V field [e] := by
  induction entries with
  | nil => rfl
  | cons e rest ih => simp only [operatorsHold, ih, List.all_cons, Bool.and_true]

theorem documentHolds_eq_all (entries : List (String × Value)) :
    documentHolds V entries = entries.all fun e => documentHolds V [e] := by
  induction entries with
  | nil => rfl
  | cons e rest ih => simp only [documentHolds, ih, List.all_cons, Bool.and_true]

theorem eachHolds_eq_map (items : List Value) : eachHolds V items = items.map (itemHolds V) := by
  induction items with
  | nil => rfl
  | cons v rest ih => rw [eachHolds, ih, List.map_cons]

end

/-! ### Documents of conditions -/

/-- What a value stands for. -/
inductive Role where
  | document
  /-- An entry of a document. -/
  | entry (key : String)
  /-- What is asked of a field. -/
  | condition
  /-- An operator of a field. -/
  | operator (key : String)

/-- Built from logical operators, the expression `true` and conditions on fields. -/
inductive IsBuilt : Role → Value → Prop where
  | document {entries : List (String × Value)} :
      (∀ e ∈ entries, IsBuilt (.entry e.1) e.2) → IsBuilt .document (.map entries)
  | logical {key : String} {items : List Value} :
      key ∈ ["$and", "$or", "$nor"] → items ≠ [] → (∀ item ∈ items, IsBuilt .document item) →
      IsBuilt (.entry key) (.list items)
  | negation {v : Value} : IsBuilt .document v → IsBuilt (.entry "$not") v
  | always : IsBuilt (.entry "$expr") (.bool true)
  | field {key : String} {v : Value} :
      isOperatorKey key = false → IsBuilt .condition v → IsBuilt (.entry key) v
  | value {v : Value} :
      (∀ entries, v = .map entries → ∀ e ∈ entries, isOperatorKey e.1 = false) →
      IsBuilt .condition v
  | operators {entries : List (String × Value)} :
      entries ≠ [] → (entries.map Prod.fst).Nodup →
      (∀ e ∈ entries, IsBuilt (.operator e.1) e.2) → IsBuilt .condition (.map entries)
  | comparison {key : String} (v : Value) :
      key ∈ ["$eq", "$ne", "$lt", "$gt", "$lte", "$gte", "$exists"] → IsBuilt (.operator key) v
  | membership {key : String} (items : List Value) :
      key ∈ ["$in", "$nin"] → IsBuilt (.operator key) (.list items)
  | complement {entries : List (String × Value)} :
      IsBuilt .condition (.map entries) → IsBuilt (.operator "$not") (.map entries)

/-- A document without entries, or with nothing but expressions. -/
def IsSilent : Value → Prop
  | .map entries => ∀ e ∈ entries, e.1 = "$expr"
  | _ => False

/-- Somewhere in the document one that says nothing is negated, or is an alternative
to one that says something. -/
inductive Loses : Value → Prop where
  | negation {entries : List (String × Value)} {v : Value} :
      ("$not", v) ∈ entries → IsSilent v → Loses (.map entries)
  | alternative {entries : List (String × Value)} {key : String} {items : List Value}
      {silent other : Value} :
      (key, .list items) ∈ entries → key ∈ ["$or", "$nor"] → silent ∈ items → IsSilent silent →
      other ∈ items → ¬IsSilent other → Loses (.map entries)
  | negated {entries : List (String × Value)} {v : Value} :
      ("$not", v) ∈ entries → Loses v → Loses (.map entries)
  | item {entries : List (String × Value)} {key : String} {items : List Value} {item : Value} :
      (key, .list items) ∈ entries → key ∈ ["$and", "$or", "$nor"] → item ∈ items → Loses item →
      Loses (.map entries)

/-- What is lost in an entry is lost in the document. -/
theorem Loses.of_entry {entries : List (String × Value)} {e : String × Value} (he : e ∈ entries)
    (h : Loses (.map [e])) : Loses (.map entries) := by
  cases h with
  | negation hmem hsilent =>
    obtain rfl := List.mem_singleton.mp hmem
    exact .negation he hsilent
  | alternative hmem hkey hsilent hsays hother hloud =>
    obtain rfl := List.mem_singleton.mp hmem
    exact .alternative he hkey hsilent hsays hother hloud
  | negated hmem hloses =>
    obtain rfl := List.mem_singleton.mp hmem
    exact .negated he hloses
  | item hmem hkey hitem hloses =>
    obtain rfl := List.mem_singleton.mp hmem
    exact .item he hkey hitem hloses

/-- Nothing is lost among conditions on fields. -/
theorem not_loses_of_fields {entries : List (String × Value)}
    (h : ∀ e ∈ entries, e.1 ∉ ["$and", "$or", "$nor", "$not"]) : ¬Loses (.map entries) := by
  intro hloses
  cases hloses with
  | negation hmem | negated hmem => exact h _ hmem (by simp)
  | alternative hmem hkey =>
    refine h _ hmem ?_
    simp only [List.mem_cons, List.not_mem_nil, or_false] at hkey ⊢
    tauto
  | item hmem hkey =>
    refine h _ hmem ?_
    simp only [List.mem_cons, List.not_mem_nil, or_false] at hkey ⊢
    tauto

/-! ### Reading -/

/-- Plain clauses that hold together exactly where something does. -/
structure Jointly (cs : List Clause) (holds : Valuation → Bool) : Prop where
  plain : ∀ c ∈ cs, c.IsPlain
  truth (V : Valuation) : cs.all (Clause.truth V) = holds V

theorem Jointly.nil {holds : Valuation → Bool} (h : ∀ V, holds V = true) : Jointly [] holds where
  plain := by simp
  truth V := (h V).symm

theorem Jointly.singleton {c : Clause} {holds : Valuation → Bool} (hc : c.IsPlain)
    (h : ∀ V, Clause.truth V c = holds V) : Jointly [c] holds where
  plain := List.forall_mem_singleton.mpr hc
  truth V := by rw [List.all_cons, List.all_nil, Bool.and_true, h]

theorem Jointly.append {cs ds : List Clause} {holds holds' : Valuation → Bool}
    (h : Jointly cs holds) (h' : Jointly ds holds') : Jointly (cs ++ ds) fun V => holds V && holds' V where
  plain c hc := (List.mem_append.mp hc).elim (h.plain c) (h'.plain c)
  truth V := by rw [List.all_append, h.truth, h'.truth]

section
variable (plan : ParsePlan) (depth : Nat) (field : String) (isRange : Bool)

theorem operators_cons (e : String × Value) (rest : List (String × Value)) :
    operators plan depth field isRange (e :: rest) = (do
      let here ← operators plan depth field isRange [e]
      return here ++ (← operators plan depth field isRange rest)) := by
  obtain ⟨key, v⟩ := e
  simp only [operators]
  split_ifs <;>
    simp only [bind_assoc, pure_bind, Result.ok_bind, List.nil_append, List.singleton_append,
      bind_pure]

theorem entryClauses_cons (e : String × Value) (rest : List (String × Value)) :
    entryClauses plan depth (e :: rest) = (do
      let here ← entryClauses plan depth [e]
      return here ++ (← entryClauses plan depth rest)) := by
  obtain ⟨key, v⟩ := e
  simp only [entryClauses]
  split_ifs <;> simp only [bind_assoc, pure_bind, Result.ok_bind, List.append_nil]

end

/-! ### Conditions on fields -/

section
variable {plan : ParsePlan} {field key : String} {v : Value}

theorem isPlain_rule (op : Operator) (v : Value) : (Clause.rule (Rule.of field op v)).IsPlain :=
  .rule (Operator.ofValue?_toValue op)

theorem truth_rule (V : Valuation) (op : Operator) (v : Value) :
    Clause.truth V (.rule (Rule.of field op v)) = V.holds (.text field) .value op v := by
  have hop : (Rule.of field op v).operator? = some op := Operator.ofValue?_toValue op
  rw [Clause.truth, V.rule_eq hop]
  rfl

/-- Equality with a value is a rule. -/
theorem jointly_equality (field : String) {v : Value}
    (hv : ∀ entries, v = .map entries → ∀ e ∈ entries, isOperatorKey e.1 = false) :
    Jointly [.rule (equality field v)] fun V => conditionHolds V field v := by
  cases v with
  | null => exact .singleton (isPlain_rule .null .null) fun V => truth_rule V .null .null
  | map entries =>
    refine .singleton (isPlain_rule .eq (.map entries)) fun V => ?_
    have hnone : (entries.any fun e => isOperatorKey e.1) = false := by
      simpa using hv entries rfl
    rw [conditionHolds, hnone]
    exact truth_rule V .eq (.map entries)
  | _ => exact .singleton (isPlain_rule .eq _) fun V => truth_rule V .eq _

/-- An operator of a field other than a negation is a rule. -/
theorem operatorRule_of_isBuilt (h : IsBuilt (.operator key) v) (hkey : key ≠ "$not") :
    ∃ op w, operatorRule field key v = .ok (Rule.of field op w) ∧
      ∀ V : Valuation, V.holds (.text field) .value op w = operatorHolds V field key v := by
  cases h with
  | complement => exact absurd rfl hkey
  | membership items hmem =>
    simp only [List.mem_cons, List.not_mem_nil, or_false] at hmem
    rcases hmem with rfl | rfl
    · exact ⟨.isIn, .list items, rfl, fun V => rfl⟩
    · exact ⟨.notIn, .list items, rfl, fun V => rfl⟩
  | comparison v hmem =>
    simp only [List.mem_cons, List.not_mem_nil, or_false] at hmem
    rcases hmem with rfl | rfl | rfl | rfl | rfl | rfl | rfl
    · exact ⟨.eq, v, by cases v <;> rfl, fun V => rfl⟩
    · cases v with
      | null => exact ⟨.notNull, .null, rfl, fun V => rfl⟩
      | _ => exact ⟨.ne, _, rfl, fun V => rfl⟩
    · exact ⟨.lt, v, by cases v <;> rfl, fun V => rfl⟩
    · exact ⟨.gt, v, by cases v <;> rfl, fun V => rfl⟩
    · exact ⟨.le, v, by cases v <;> rfl, fun V => rfl⟩
    · exact ⟨.ge, v, by cases v <;> rfl, fun V => rfl⟩
    · exact ⟨_, .null, by cases v <;> rfl, fun V => rfl⟩

/-- An operator is read as one plain clause that holds where the operator does. -/
def ReadsOperator (plan : ParsePlan) (field : String) (e : String × Value) : Prop :=
  e.1 ≠ "$options" ∧ ∃ c, c.IsPlain ∧ (∀ V, Clause.truth V c = operatorsHold V field [e]) ∧
    ∀ depth isRange, isSkipped isRange e.1 = false →
      operators plan depth field isRange [e] = .ok [c]

variable {entries : List (String × Value)}

/-- Operators are read one by one; a range takes its bounds with it. -/
theorem operators_of_reads (h : ∀ e ∈ entries, ReadsOperator plan field e) (isRange : Bool) :
    ∃ cs, (∀ depth, operators plan depth field isRange entries = .ok cs) ∧
      (cs = [] → ∀ e ∈ entries, isSkipped isRange e.1 = true) ∧
      Jointly cs fun V => (entries.filter fun e => !isSkipped isRange e.1).all fun e =>
        operatorsHold V field [e] := by
  induction entries with
  | nil => exact ⟨[], fun _ => rfl, by simp, .nil fun _ => rfl⟩
  | cons e entries ih =>
    obtain ⟨⟨-, c, hplain, htruth, hread⟩, hrest⟩ := List.forall_mem_cons.mp h
    obtain ⟨cs, hreads, hempty, hjoint⟩ := ih hrest
    cases hskip : isSkipped isRange e.1 with
    | true =>
      refine ⟨cs, fun depth => ?_, fun hcs => ?_, ?_⟩
      · rw [operators_cons, hreads]
        rw [operators, hskip]
        rfl
      · exact List.forall_mem_cons.mpr ⟨hskip, hempty hcs⟩
      · simpa [hskip] using hjoint
    | false =>
      refine ⟨c :: cs, fun depth => ?_, by simp, ?_⟩
      · rw [operators_cons, hread depth isRange hskip, hreads]
        rfl
      · have hjoints := (Jointly.singleton hplain htruth).append hjoint
        simpa [hskip] using hjoints

/-- The operators of an object with two bounds are the range and the others. -/
theorem all_eq_range {low high : Value} (hkeys : (entries.map Prod.fst).Nodup)
    (hoptions : ∀ e ∈ entries, e.1 ≠ "$options")
    (hlow : Value.lookup "$gte" entries = some low)
    (hhigh : Value.lookup "$lte" entries = some high) (f : String × Value → Bool) :
    entries.all f = ((f ("$gte", low) && f ("$lte", high)) &&
      (entries.filter fun e => !isSkipped true e.1).all f) := by
  have hlowmem := Value.mem_of_lookup hlow
  have hhighmem := Value.mem_of_lookup hhigh
  rw [Bool.eq_iff_iff]
  simp only [Bool.and_eq_true, List.all_eq_true, List.mem_filter, Bool.not_eq_true']
  constructor
  · intro h
    exact ⟨⟨h _ hlowmem, h _ hhighmem⟩, fun e he => h e he.1⟩
  · rintro ⟨⟨hf, hf'⟩, h⟩ e he
    cases hskip : isSkipped true e.1 with
    | false => exact h e ⟨he, hskip⟩
    | true =>
      have hbound : e.1 = "$gte" ∨ e.1 = "$lte" := by
        simpa [isSkipped, hoptions e he] using hskip
      rcases hbound with hkey | hkey
      · rwa [List.inj_on_of_nodup_map hkeys he hlowmem hkey]
      · rwa [List.inj_on_of_nodup_map hkeys he hhighmem hkey]

/-- The operators of an object are read as plain clauses that hold together where the
operators do. -/
theorem conditions_of_reads (hne : entries ≠ []) (hkeys : (entries.map Prod.fst).Nodup)
    (hoperators : ∀ e ∈ entries, isOperatorKey e.1 = true)
    (h : ∀ e ∈ entries, ReadsOperator plan field e) :
    ∃ cs, cs ≠ [] ∧ (∀ depth, conditions plan depth field (.map entries) = .ok cs) ∧
      Jointly cs fun V => conditionHolds V field (.map entries) := by
  have hany : (entries.any fun e => isOperatorKey e.1) = true := by
    obtain ⟨e, rest, rfl⟩ := List.exists_cons_of_ne_nil hne
    rw [List.any_cons, hoperators e List.mem_cons_self, Bool.true_or]
  have hholds : ∀ V, conditionHolds V field (.map entries) =
      entries.all fun e => operatorsHold V field [e] := by
    intro V
    rw [conditionHolds, if_pos hany, operatorsHold_eq_all]
  obtain ⟨cs, hreads, hempty, hjoint⟩ := operators_of_reads h (range? field entries).isSome
  have hconditions : ∀ depth, conditions plan depth field (.map entries) =
      .ok (((range? field entries).map Clause.rule).toList ++ cs) := by
    intro depth
    rw [conditions, objectConditions, if_pos hany, hreads]
    rfl
  refine ⟨_, ?_, hconditions, ?_⟩
  · intro hnil
    obtain ⟨hrange, hcs⟩ := List.append_eq_nil_iff.mp hnil
    obtain ⟨e, rest, rfl⟩ := List.exists_cons_of_ne_nil hne
    have hskip := hempty hcs e List.mem_cons_self
    cases hfound : range? field (e :: rest) with
    | some r => simp [hfound] at hrange
    | none => simp [hfound, isSkipped, (h e List.mem_cons_self).1] at hskip
  · simp only [hholds]
    cases hfound : range? field entries with
    | none =>
      have hkept : (entries.filter fun e => !isSkipped false e.1) = entries :=
        List.filter_eq_self.mpr fun e he => by simp [isSkipped, (h e he).1]
      simpa [hfound, hkept] using hjoint
    | some r =>
      rw [hfound] at hjoint
      unfold range? at hfound
      split at hfound
      case h_2 => cases hfound
      case h_1 low high hlow hhigh =>
        obtain rfl := Option.some.inj hfound
        have hrange : Jointly [.rule (Rule.of field .between (.list [low, high]))] fun V =>
            operatorsHold V field [("$gte", low)] && operatorsHold V field [("$lte", high)] := by
          refine .singleton (isPlain_rule _ _) fun V => ?_
          rw [truth_rule, V.between]
          simp [operatorsHold, operatorHolds]
        have hall : Jointly _ _ := hrange.append hjoint
        simp only [all_eq_range hkeys (fun e he => (h e he).1) hlow hhigh]
        exact hall

end

/-! ### Joining clauses -/

section
variable {plan : ParsePlan} {cs : List Clause} {holds : Valuation → Bool}

theorem checkDepth_eq_ok (hdepth : plan.maxDepth = none) (depth : Nat) :
    plan.checkDepth depth = .ok () := by
  rw [ParsePlan.checkDepth, hdepth]

/-- The conjunction of clauses, negated or not. -/
theorem truth_join_and (negated : Bool) (h : Jointly cs holds) (V : Valuation) :
    Clause.truth V (Clause.join .and negated cs) = (negated ^^ holds V) := by
  by_cases hne : cs = []
  · subst hne
    rw [← h.truth, Clause.join, Clause.truth, List.all_nil]
  · rw [Clause.truth_join .and negated hne, Clause.joined, List.all_map, ← h.truth]
    rfl

theorem conjunction_of_jointly (hdepth : plan.maxDepth = none) (hne : cs ≠ [])
    (h : Jointly cs holds) :
    ∃ c, c.IsPlain ∧ (∀ V, Clause.truth V c = holds V) ∧
      ∀ depth, conjunction plan depth cs = .ok (some c) := by
  match cs, hne with
  | [c], _ =>
    refine ⟨c, h.plain c (by simp), fun V => ?_, fun _ => rfl⟩
    rw [← h.truth, List.all_cons, List.all_nil, Bool.and_true]
  | c :: d :: rest, hne =>
    refine ⟨_, Clause.isPlain_join .and false h.plain, fun V => ?_, fun depth => ?_⟩
    · rw [truth_join_and false h, Bool.false_xor]
    · show (do
        plan.checkDepth depth
        return some (Clause.join .and false (c :: d :: rest))) = _
      rw [checkDepth_eq_ok hdepth]
      rfl

theorem negateConditions_of_jointly (hdepth : plan.maxDepth = none) (hne : cs ≠ [])
    (h : Jointly cs holds) :
    ∃ c, c.IsPlain ∧ (∀ V, Clause.truth V c = !holds V) ∧
      ∀ depth, negateConditions plan depth cs = .ok c := by
  match cs, hne with
  | [c], _ =>
    obtain ⟨d, hd, hplain, htruth⟩ := (h.plain c (by simp)).exists_negate
    refine ⟨d, hplain, fun V => ?_, fun _ => hd⟩
    rw [htruth, ← h.truth, List.all_cons, List.all_nil, Bool.and_true]
  | c :: d :: rest, hne =>
    refine ⟨_, Clause.isPlain_join .and true h.plain, fun V => ?_, fun depth => ?_⟩
    · rw [truth_join_and true h, Bool.true_xor]
    · show (do
        plan.checkDepth depth
        return Clause.join .and true (c :: d :: rest)) = _
      rw [checkDepth_eq_ok hdepth]
      rfl

/-- The complement of a disjunction. -/
theorem nor_of_isPlain (hne : cs ≠ []) (hplain : ∀ c ∈ cs, c.IsPlain) :
    ∃ c, c.IsPlain ∧ (∀ V, Clause.truth V c = !cs.any (Clause.truth V)) ∧ nor cs = .ok c := by
  have hjoin : (Clause.join .or true cs).IsPlain ∧
      ∀ V, Clause.truth V (Clause.join .or true cs) = !cs.any (Clause.truth V) := by
    refine ⟨Clause.isPlain_join .or true hplain, fun V => ?_⟩
    rw [Clause.truth_join .or true hne, Clause.joined, List.any_map, Bool.true_xor]
    rfl
  fun_cases nor cs with
  | case1 r => exact ⟨_, hjoin.1, hjoin.2, rfl⟩
  | case2 c =>
    obtain ⟨d, hd, hd', htruth⟩ := (hplain c (by simp)).exists_negate
    refine ⟨d, hd', fun V => ?_, hd⟩
    rw [htruth, List.any_cons, List.any_nil, Bool.or_false]
  | case3 => exact ⟨_, hjoin.1, hjoin.2, rfl⟩

end

/-! ### Documents -/

/-- A document that says nothing holds. -/
theorem IsSilent.itemHolds {v : Value} (h : IsSilent v) (V : Valuation) : itemHolds V v = true := by
  cases v with
  | map entries =>
    rw [Mongo.itemHolds, documentHolds_eq_all, List.all_eq_true]
    intro e he
    obtain ⟨key, v⟩ := e
    obtain rfl : key = "$expr" := h _ he
    simp [documentHolds]
  | _ => cases h

/-- An entry is read as plain clauses that hold together where it does; there are none
only for an expression. -/
def ReadsEntry (plan : ParsePlan) (e : String × Value) : Prop :=
  ∃ cs, (cs = [] ↔ e.1 = "$expr") ∧ (Jointly cs fun V => documentHolds V [e]) ∧
    ∀ depth, entryClauses plan depth [e] = .ok cs

/-- A document in a list or under a negation is read as a plain clause that says the
same, or as none if it says nothing. -/
structure ReadsDocument (plan : ParsePlan) (v : Value) (c? : Option Clause) : Prop where
  item (depth : Nat) (key : String) : itemDocument plan depth key v = .ok c?
  negated (depth : Nat) : negatedDocument plan depth v = .ok c?
  silent : c? = none ↔ IsSilent v
  plain {c : Clause} : c? = some c → c.IsPlain
  truth {c : Clause} : c? = some c → ∀ V, Clause.truth V c = itemHolds V v

section
variable {plan : ParsePlan} {entries : List (String × Value)} {items : List Value}

/-- Entries are read one by one. -/
theorem entryClauses_of_reads (h : ∀ e ∈ entries, ReadsEntry plan e) :
    ∃ cs, (cs = [] ↔ ∀ e ∈ entries, e.1 = "$expr") ∧
      (Jointly cs fun V => documentHolds V entries) ∧
      ∀ depth, entryClauses plan depth entries = .ok cs := by
  induction entries with
  | nil => exact ⟨[], by simp, .nil fun _ => rfl, fun _ => rfl⟩
  | cons e entries ih =>
    obtain ⟨⟨cs, hempty, hjoint, hread⟩, hrest⟩ := List.forall_mem_cons.mp h
    obtain ⟨ds, hempty', hjoint', hread'⟩ := ih hrest
    refine ⟨cs ++ ds, ?_, ?_, fun depth => ?_⟩
    · rw [List.append_eq_nil_iff, hempty, hempty', List.forall_mem_cons]
    · have hholds : ∀ V, documentHolds V (e :: entries) =
          (documentHolds V [e] && documentHolds V entries) := fun V => by
        simp only [documentHolds, Bool.and_true]
      simp only [hholds]
      exact hjoint.append hjoint'
    · rw [entryClauses_cons, hread, hread']
      rfl

/-- The entries of a document are joined to its clause. -/
theorem document_of_reads (hdepth : plan.maxDepth = none)
    (h : ∀ e ∈ entries, ReadsEntry plan e) : ∃ c?, ReadsDocument plan (.map entries) c? := by
  obtain ⟨cs, hempty, hjoint, hread⟩ := entryClauses_of_reads h
  obtain ⟨c?, hc, hsilent, hplain, htruth⟩ : ∃ c? : Option Clause,
      (∀ depth, conjunction plan depth cs = .ok c?) ∧ (c? = none ↔ IsSilent (.map entries)) ∧
      (∀ {c}, c? = some c → c.IsPlain) ∧
      ∀ {c}, c? = some c → ∀ V, Clause.truth V c = itemHolds V (.map entries) := by
    by_cases hne : cs = []
    · subst hne
      exact ⟨none, fun _ => rfl, iff_of_true rfl (hempty.mp rfl), by simp, by simp⟩
    · obtain ⟨c, hplain, htruth, hc⟩ := conjunction_of_jointly hdepth hne hjoint
      refine ⟨some c, hc, iff_of_false (by simp) fun hs => hne (hempty.mpr hs), ?_, ?_⟩
      · intro d hd
        obtain rfl := Option.some.inj hd
        exact hplain
      · intro d hd V
        obtain rfl := Option.some.inj hd
        exact htruth V
  refine ⟨c?, fun depth key => ?_, fun depth => ?_, hsilent, hplain, htruth⟩
  · rw [itemDocument, hread]
    exact hc depth
  · rw [negatedDocument, hread]
    exact hc depth

/-- Documents in a list are read one by one, and those that say nothing are left out. -/
theorem documents_of_reads_all (h : ∀ item ∈ items, ∃ c?, ReadsDocument plan item c?) :
    ∃ cs, (∀ depth key, documents plan depth key items = .ok cs) ∧
      (Jointly cs fun V => items.all (itemHolds V)) ∧
      (cs = [] ↔ ∀ item ∈ items, IsSilent item) ∧
      ((∀ item ∈ items, ¬IsSilent item) →
        ∀ V, cs.map (Clause.truth V) = items.map (itemHolds V)) := by
  induction items with
  | nil => exact ⟨[], fun _ _ => rfl, .nil fun _ => rfl, by simp, fun _ _ => rfl⟩
  | cons item items ih =>
    obtain ⟨⟨c?, hitem⟩, hrest⟩ := List.forall_mem_cons.mp h
    obtain ⟨cs, hreads, hjoint, hsilent, hmap⟩ := ih hrest
    refine ⟨c?.toList ++ cs, fun depth key => ?_, ?_, ?_, fun hnone V => ?_⟩
    · rw [documents, hitem.item, hreads]
      rfl
    · have hfirst : Jointly c?.toList fun V => itemHolds V item := by
        cases c? with
        | none => exact .nil fun V => (hitem.silent.mp rfl).itemHolds V
        | some c => exact .singleton (hitem.plain rfl) (hitem.truth rfl)
      exact hfirst.append hjoint
    · rw [List.append_eq_nil_iff, hsilent, List.forall_mem_cons, ← hitem.silent]
      cases c? <;> simp
    · obtain ⟨hfirst, hothers⟩ := List.forall_mem_cons.mp hnone
      cases c? with
      | none => exact absurd (hitem.silent.mp rfl) hfirst
      | some c =>
        rw [Option.toList_some, List.singleton_append, List.map_cons, List.map_cons,
          hitem.truth rfl, hmap hothers]

/-- A logical operator is read as a clause that says the same, if none of several
alternatives says nothing while another does. -/
theorem logical_of_reads (hdepth : plan.maxDepth = none) {key : String}
    (hkey : key ∈ ["$and", "$or", "$nor"]) (hne : items ≠ [])
    (h : ∀ item ∈ items, ∃ c?, ReadsDocument plan item c?)
    (hlost : key ∈ ["$or", "$nor"] →
      ∀ silent ∈ items, IsSilent silent → ∀ other ∈ items, IsSilent other) :
    ∃ c, c.IsPlain ∧ (∀ V, Clause.truth V c = documentHolds V [(key, .list items)]) ∧
      ∀ depth, logical plan depth key (.list items) = .ok c := by
  obtain ⟨cs, hreads, hjoint, hsilent, hmap⟩ := documents_of_reads_all h
  have hlogical : ∀ depth, logical plan depth key (.list items) =
      if key = "$nor" then nor cs else .ok (Clause.join (junction key) false cs) := by
    intro depth
    rw [logical, checkDepth_eq_ok hdepth]
    simp only [hreads]
    rfl
  simp only [hlogical]
  simp only [List.mem_cons, List.not_mem_nil, or_false] at hkey
  rcases hkey with rfl | hkey
  · refine ⟨_, Clause.isPlain_join .and false hjoint.plain, fun V => ?_, fun _ => rfl⟩
    rw [truth_join_and false hjoint]
    simp [documentHolds, itemsHold, eachHolds_eq_map]
  · have hdocument : ∀ V, documentHolds V [(key, .list items)] =
        ((key = "$nor") ^^ items.any (itemHolds V)) := by
      intro V
      rcases hkey with rfl | rfl <;> simp [documentHolds, itemsHold, eachHolds_eq_map]
    by_cases hquiet : ∃ silent ∈ items, IsSilent silent
    · -- all alternatives say nothing, and an empty disjunction counts as true
      obtain ⟨silent, hmem, hs⟩ := hquiet
      have hall : ∀ item ∈ items, IsSilent item := hlost (by simpa using hkey) silent hmem hs
      have hany : ∀ V, items.any (itemHolds V) = true := fun V =>
        List.any_eq_true.mpr ⟨silent, hmem, hs.itemHolds V⟩
      obtain rfl := hsilent.mpr hall
      refine ⟨.empty (key = "$nor"), .empty _, fun V => ?_, fun depth => ?_⟩
      · rw [hdocument, hany, Clause.truth]
      · rcases hkey with rfl | rfl <;> rfl
    · have hloud : ∀ item ∈ items, ¬IsSilent item := fun item hitem hs =>
        hquiet ⟨item, hitem, hs⟩
      have hcs : cs ≠ [] := by
        intro hnil
        obtain ⟨item, rest, rfl⟩ := List.exists_cons_of_ne_nil hne
        exact hloud item List.mem_cons_self (hsilent.mp hnil item List.mem_cons_self)
      have hany : ∀ V, cs.any (Clause.truth V) = items.any (itemHolds V) := by
        intro V
        have htruths := congrArg (List.any · id) (hmap hloud V)
        rwa [List.any_map, List.any_map] at htruths
      rcases hkey with rfl | rfl
      · refine ⟨_, Clause.isPlain_join .or false hjoint.plain, fun V => ?_, fun _ => rfl⟩
        rw [hdocument, ← hany, Clause.truth_join .or false hcs, Clause.joined, List.any_map]
        rfl
      · obtain ⟨c, hplain, htruth, hnor⟩ := nor_of_isPlain hcs hjoint.plain
        refine ⟨c, hplain, fun V => ?_, fun _ => hnor⟩
        rw [hdocument, ← hany, htruth]
        simp

/-- A logical operator is read as an entry. -/
theorem readsEntry_logical {key : String} {items : List Value} {c : Clause}
    (hkey : key ∈ ["$and", "$or", "$nor"]) (hplain : c.IsPlain)
    (htruth : ∀ V, Clause.truth V c = documentHolds V [(key, .list items)])
    (hread : ∀ depth, logical plan depth key (.list items) = .ok c) :
    ReadsEntry plan (key, .list items) := by
  refine ⟨[c], iff_of_false (by simp) ?_, .singleton hplain htruth, fun depth => ?_⟩
  · rintro rfl
    simp at hkey
  · have hlogical : (key = "$and" || key = "$or" || key = "$nor") = true := by
      simpa [or_assoc] using hkey
    simp only [entryClauses, hlogical, if_true, hread]
    rfl

/-- A negation is read as an entry, if it takes a document that says something. -/
theorem readsEntry_negation {v : Value} {c : Clause} (h : ReadsDocument plan v (some c)) :
    ReadsEntry plan ("$not", v) := by
  obtain ⟨d, hd, hplain, htruth⟩ := (h.plain rfl).exists_negate
  refine ⟨[d], by simp, .singleton hplain fun V => ?_, fun depth => ?_⟩
  · rw [htruth, h.truth rfl]
    simp [documentHolds]
  · have hmap : (some c).mapM Clause.negate = .ok (some d) := by
      show Functor.map some c.negate = _
      rw [hd]
      rfl
    simp [entryClauses, h.negated, hmap, Result.ok_bind]

/-- The conditions on a field are read as an entry. -/
theorem readsEntry_field {key : String} {v : Value} {cs : List Clause}
    (hkey : isOperatorKey key = false) (hne : cs ≠ [])
    (hread : ∀ depth, conditions plan depth key v = .ok cs)
    (hjoint : Jointly cs fun V => conditionHolds V key v) : ReadsEntry plan (key, v) := by
  have hfield : ∀ operator, isOperatorKey operator = true → key ≠ operator := by
    rintro _ hoperator rfl
    rw [hkey] at hoperator
    cases hoperator
  have hand := hfield "$and" (by decide)
  have hor := hfield "$or" (by decide)
  have hnor := hfield "$nor" (by decide)
  have hnot := hfield "$not" (by decide)
  have hexpr := hfield "$expr" (by decide)
  refine ⟨cs, iff_of_false hne hexpr, ?_, fun depth => ?_⟩
  · simpa [documentHolds, hand, hor, hnor, hnot, hexpr] using hjoint
  · simp [entryClauses, hand, hor, hnor, hnot, hexpr, hkey, hread, Result.ok_bind]

end

/-! ### Whatever is built -/

/-- What is read of a value in its role. -/
def IsRead (plan : ParsePlan) : Role → Value → Prop
  | .document, v => ¬Loses v → ∃ c?, ReadsDocument plan v c?
  | .entry key, v => ¬Loses (.map [(key, v)]) → ReadsEntry plan (key, v)
  | .condition, v => ∀ field, ∃ cs, cs ≠ [] ∧
      (∀ depth, conditions plan depth field v = .ok cs) ∧
      Jointly cs fun V => conditionHolds V field v
  | .operator key, v => isOperatorKey key = true ∧ ∀ field, ReadsOperator plan field (key, v)

section
variable {plan : ParsePlan} {role : Role} {key : String} {v : Value}

/-- Operators other than a negation are read as their rules. -/
theorem isRead_operator (h : IsBuilt (.operator key) v) (hnot : key ≠ "$not")
    (hkey : isOperatorKey key = true) (hoptions : key ≠ "$options") :
    IsRead plan (.operator key) v := by
  refine ⟨hkey, fun field => ⟨hoptions, ?_⟩⟩
  obtain ⟨op, w, hrule, hholds⟩ : ∃ op w, operatorRule field key v = .ok (Rule.of field op w) ∧
      ∀ V : Valuation, V.holds (.text field) .value op w = operatorHolds V field key v :=
    operatorRule_of_isBuilt h hnot
  refine ⟨.rule (Rule.of field op w), isPlain_rule op w, fun V => ?_, fun depth isRange hskip => ?_⟩
  · rw [truth_rule, hholds]
    simp [operatorsHold, hnot]
  · simp [operators, hskip, hnot, hrule]
    rfl

/-- An object of operators is read as negated. -/
theorem isRead_complement (hdepth : plan.maxDepth = none) {entries : List (String × Value)}
    (h : IsRead plan .condition (.map entries)) :
    IsRead plan (.operator "$not") (.map entries) := by
  have hoptions : "$not" ≠ "$options" := by decide
  refine ⟨by decide, fun field => ⟨hoptions, ?_⟩⟩
  obtain ⟨cs, hne, hread, hjoint⟩ := h field
  obtain ⟨c, hplain, htruth, hc⟩ := negateConditions_of_jointly hdepth hne hjoint
  refine ⟨c, hplain, fun V => ?_, fun depth isRange hskip => ?_⟩
  · rw [htruth]
    simp [operatorsHold]
  · have hnegand : negand plan depth field (.map entries) = .ok cs := by
      rw [← hread depth, negand, conditions]
    simp [operators, hskip, hnegand, hc, Result.ok_bind]

/-- Whatever is built of the operators is read, unless a document is lost. -/
theorem isRead_of_isBuilt (hdepth : plan.maxDepth = none) (h : IsBuilt role v) :
    IsRead plan role v := by
  induction h with
  | document _ ih =>
    intro hloses
    exact document_of_reads hdepth fun e he => ih e he fun h => hloses (h.of_entry he)
  | @logical key items hkey hne _ ih =>
    intro hloses
    have hitems : ∀ item ∈ items, ∃ c?, ReadsDocument plan item c? := fun item hitem =>
      ih item hitem fun h => hloses (.item (List.mem_singleton_self _) hkey hitem h)
    have hlost : key ∈ ["$or", "$nor"] →
        ∀ silent ∈ items, IsSilent silent → ∀ other ∈ items, IsSilent other := by
      intro hor silent hsilent hs other hother
      by_contra hloud
      exact hloses (.alternative (List.mem_singleton_self _) hor hsilent hs hother hloud)
    obtain ⟨c, hplain, htruth, hread⟩ := logical_of_reads hdepth hkey hne hitems hlost
    exact readsEntry_logical hkey hplain htruth hread
  | @negation v _ ih =>
    intro hloses
    obtain ⟨c?, hread⟩ := ih fun h => hloses (.negated (List.mem_singleton_self _) h)
    cases c? with
    | none => exact absurd (.negation (List.mem_singleton_self _) (hread.silent.mp rfl)) hloses
    | some c => exact readsEntry_negation hread
  | always =>
    intro _
    exact ⟨[], by simp, .nil fun _ => rfl, fun _ => rfl⟩
  | @field key v hkey _ ih =>
    intro _
    obtain ⟨cs, hne, hread, hjoint⟩ := ih key
    exact readsEntry_field hkey hne hread hjoint
  | @value v hv =>
    intro field
    refine ⟨_, List.cons_ne_nil _ _, fun depth => ?_, jointly_equality field hv⟩
    cases v with
    | map entries =>
      have hnone : (entries.any fun e => isOperatorKey e.1) = false := by
        simpa using hv entries rfl
      rw [conditions, objectConditions, hnone]
      rfl
    | _ =>
      rw [conditions]
      intro _ hmap
      cases hmap
  | operators hne hkeys _ ih =>
    intro field
    exact conditions_of_reads hne hkeys (fun e he => (ih e he).1) fun e he => (ih e he).2 field
  | comparison v hkey =>
    have hbuilt := IsBuilt.comparison v hkey
    simp only [List.mem_cons, List.not_mem_nil, or_false] at hkey
    rcases hkey with rfl | rfl | rfl | rfl | rfl | rfl | rfl <;>
      exact isRead_operator hbuilt (by decide) (by decide) (by decide)
  | membership items hkey =>
    have hbuilt := IsBuilt.membership items hkey
    simp only [List.mem_cons, List.not_mem_nil, or_false] at hkey
    rcases hkey with rfl | rfl <;>
      exact isRead_operator hbuilt (by decide) (by decide) (by decide)
  | complement _ ih => exact isRead_complement hdepth ih

end

end Mongo

namespace Query
open Mongo

/-- **Documents.**  A document that is built of the logical operators and of conditions
on fields is accepted, and its tree holds exactly where the document does, unless one of
its documents is lost. -/
theorem parse_document {source : Value} {entries : List (String × Value)}
    (hsource : Json.document "MongoDB" source = .ok (.map entries))
    (hbuilt : IsBuilt .document (.map entries)) (hloses : ¬Loses (.map entries)) :
    ∃ t, parse (.value source) (.text "mongodb") .defaults
        [("lists_as_arrays", .plain (.bool true))] = .ok t ∧
      ∀ (V : Valuation) (other : Value → List Bool → Bool),
        t.truth (V.interpretation other) = documentHolds V entries := by
  obtain ⟨c?, hread⟩ : ∃ c?, ReadsDocument (.shaped false) (.map entries) c? :=
    isRead_of_isBuilt rfl hbuilt hloses
  have hclause : clause? (.shaped false) source = .ok c? := by
    rw [clause?, hsource]
    exact hread.item 1 ""
  have hparse : ∀ t, Clause.toTree Mongo.traits (.shaped false) c? = .ok t →
      parse (.value source) (.text "mongodb") .defaults
        [("lists_as_arrays", .plain (.bool true))] = .ok t := by
    intro t ht
    have hreader : reader (.text "mongodb") = .ok ("mongodb", Mongo.read) := rfl
    rw [parse, hreader]
    show Mongo.read (.shaped false) source = _
    rw [Mongo.read, hclause]
    exact ht
  -- no clause at all counts as an empty group
  obtain ⟨c, hplain, htree, htruth⟩ : ∃ c : Clause, c.IsPlain ∧
      Clause.toTree Mongo.traits (.shaped false) c? =
        Clause.toTree Mongo.traits (.shaped false) (some c) ∧
      ∀ V, Clause.truth V c = documentHolds V entries := by
    cases c? with
    | none =>
      refine ⟨.empty false, .empty false, rfl, fun V => ?_⟩
      exact ((hread.silent.mp rfl).itemHolds V).symm
    | some c => exact ⟨c, hread.plain rfl, rfl, hread.truth rfl⟩
  have hbuild : ∀ (V : Valuation) (other : Value → List Bool → Bool), ∃ t,
      Clause.toTree Mongo.traits (.shaped false) c? = .ok t ∧
        t.truth (V.interpretation other) = documentHolds V entries := by
    intro V other
    rw [htree, ← htruth]
    exact Clause.truth_of_toTree Mongo.traits false hplain
  obtain ⟨t, ht, -⟩ := hbuild (.constant 0) fun _ _ => false
  refine ⟨t, hparse t ht, fun V other => ?_⟩
  obtain ⟨t', ht', hsays⟩ := hbuild V other
  rw [Except.ok.inj (ht.symm.trans ht')]
  exact hsays

/-- A negated disjunction, a range beside an inequality, and a document that says nothing
in a conjunction. -/
def documentSpecimen : List (String × Value) :=
  [("$nor", .list [.map [("a", .null)], .map [("b", .map [("$not", .map [("$gt", .int 1)])])]]),
    ("c", .map [("$gte", .int 1), ("$ne", .int 2), ("$lte", .int 3)]),
    ("$and", .list [.map []])]

theorem parse_document_specimen :
    ∃ t, parse (.value (.map documentSpecimen)) (.text "mongodb") .defaults
        [("lists_as_arrays", .plain (.bool true))] = .ok t ∧
      ∀ (V : Valuation) (other : Value → List Bool → Bool),
        t.truth (V.interpretation other) = documentHolds V documentSpecimen := by
  have hnull : IsBuilt .document (.map [("a", .null)]) := by
    refine .document (List.forall_mem_singleton.mpr (.field (by decide) (.value ?_)))
    intro _ hmap
    cases hmap
  have hnot : IsBuilt .document (.map [("b", .map [("$not", .map [("$gt", .int 1)])])]) := by
    refine .document (List.forall_mem_singleton.mpr (.field (by decide) ?_))
    refine .operators (by simp) (by decide) (List.forall_mem_singleton.mpr (.complement ?_))
    exact .operators (by simp) (by decide)
      (List.forall_mem_singleton.mpr (.comparison _ (by decide)))
  have hrange : IsBuilt .condition
      (.map [("$gte", .int 1), ("$ne", .int 2), ("$lte", .int 3)]) := by
    refine .operators (by simp) (by decide) ?_
    simp only [List.forall_mem_cons]
    exact ⟨.comparison _ (by decide), .comparison _ (by decide), .comparison _ (by decide),
      by simp⟩
  refine parse_document rfl (.document ?_) ?_
  · simp only [documentSpecimen, List.forall_mem_cons]
    refine ⟨.logical (by decide) (by simp) ?_, .field (by decide) hrange,
      .logical (by decide) (by simp) ?_, by simp⟩
    · simp only [List.forall_mem_cons]
      exact ⟨hnull, hnot, by simp⟩
    · exact List.forall_mem_singleton.mpr (.document (by simp))
  · have hsilent : ∀ item ∈ [Value.map [("a", .null)],
        .map [("b", .map [("$not", .map [("$gt", .int 1)])])]], ¬IsSilent item := by
      simp [IsSilent]
    intro h
    cases h with
    | negation hmem | negated hmem => simp [documentSpecimen] at hmem
    | alternative hmem hkey hs hquiet =>
      simp only [documentSpecimen, List.mem_cons, Prod.mk.injEq, Value.list.injEq, reduceCtorEq,
        and_false, List.not_mem_nil, or_false, false_or] at hmem
      rcases hmem with ⟨-, rfl⟩ | ⟨rfl, -⟩
      · exact hsilent _ hs hquiet
      · simp at hkey
    | item hmem _ hitem hloses =>
      simp only [documentSpecimen, List.mem_cons, Prod.mk.injEq, Value.list.injEq, reduceCtorEq,
        and_false, List.not_mem_nil, or_false, false_or] at hmem
      rcases hmem with ⟨-, rfl⟩ | ⟨-, rfl⟩
      · simp only [List.mem_cons, List.not_mem_nil, or_false] at hitem
        rcases hitem with rfl | rfl <;> exact not_loses_of_fields (by simp) hloses
      · obtain rfl := List.mem_singleton.mp hitem
        exact not_loses_of_fields (by simp) hloses

/-- The document `{"$or": [{}, {"a": 1}]}`. -/
def lostSpecimen : List (String × Value) := [("$or", .list [.map [], .map [("a", .int 1)]])]

/-- An alternative that always holds is lost. -/
theorem parse_document_lost :
    IsBuilt .document (.map lostSpecimen) ∧ (∀ V, documentHolds V lostSpecimen = true) ∧
      ∃ t, parse (.value (.map lostSpecimen)) (.text "mongodb") .defaults
          [("lists_as_arrays", .plain (.bool true))] = .ok t ∧
        ∀ other, t.truth ((Valuation.constant 0).interpretation other) = false := by
  refine ⟨.document ?_, fun V => ?_, .group (.text "and") {} [.rule (Rule.of "a" .eq (.int 1))],
    rfl, fun other => ?_⟩
  · refine List.forall_mem_singleton.mpr (.logical (by decide) (by simp) ?_)
    simp only [List.forall_mem_cons]
    refine ⟨.document (by simp), .document ?_, by simp⟩
    exact List.forall_mem_singleton.mpr (.field (by decide) (.value fun _ hmap => by cases hmap))
  · simp [lostSpecimen, documentHolds, itemsHold, eachHolds, itemHolds]
  · have hrule : ((Valuation.constant 0).interpretation other).rule (Rule.of "a" .eq (.int 1)) =
        false := rfl
    rw [Node.truth_group, List.map_singleton, Node.truth_rule, hrule]
    rfl

end Query
end RuleTree
