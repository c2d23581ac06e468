import RuleTree.Proofs.Patterns
import RuleTree.Proofs.RoundTrip

/-! # MongoDB documents come back

The trees of `Mongo.repertoire` are read back from their query documents
(`reread_mongodb`).  Every rule and every group is written as a document of one
entry, whatever the depth at which it stands, that states a single clause
(`Reads`).  A range is one condition with two bounds, two documents under `$or`,
or two expressions, and the latter are recovered as ranges.  A negated group is
a negated disjunction of one document, which is folded back into it.
-/
namespace RuleTree
namespace Mongo

/-! ### The class of trees -/

/-- A name does not look like an operator. -/
def IsName (name : String) : Prop := name.toList.head? ≠ some '$'

instance (name : String) : Decidable (IsName name) := inferInstanceAs (Decidable (_ ≠ _))

/-- The texts of text matches: no line break, and no backslash before the anchor
of an end. -/
def IsMatch (op : Operator) (s : String) : Prop :=
  '\n' ∉ s.toList ∧ (op.anchorsEnd = true → s.toList.getLast? ≠ some '\\')

/-- What documents tell apart. -/
def repertoire : Repertoire where
  IsName := IsName
  IsListed name := IsName name ∧ name ≠ "" ∧ Text.trim name = name
  listed h := h.2
  IsMatch := IsMatch
  matchesFields := False
  IsDistinct := Node.IsTold

theorem listed (name : String) (h : repertoire.IsListed name) : repertoire.IsName name := h.1

/-! ### Documents of one clause -/

/-- A document of one entry that states a clause, at any depth. -/
def Reads (document : Value) (c : Clause) : Prop :=
  ∃ key v, document = entry key v ∧ ∀ depth, entryClauses .arrays depth [(key, v)] = .ok [c]

/-- A document that states a clause is one as an item of a list. -/
theorem Reads.itemDocument {document : Value} {c : Clause} (h : Reads document c) (depth : Nat)
    (key : String) : itemDocument .arrays depth key document = .ok (some c) := by
  obtain ⟨k, v, rfl, hreads⟩ := h
  rw [entry, Mongo.itemDocument, hreads]
  rfl

theorem documents_of_reads {outs : List Value} {cs : List Clause}
    (h : List.Forall₂ Reads outs cs) (depth : Nat) (key : String) :
    documents .arrays depth key outs = .ok cs := by
  induction h with
  | nil => rw [documents]
  | cons hout _ ih =>
    rw [documents, hout.itemDocument, ih]
    rfl

theorem Reads.clause? {document : Value} {c : Clause} (h : Reads document c) :
    clause? .arrays document = .ok (some c) := by
  obtain ⟨k, v, rfl, hreads⟩ := h
  have hdocument : Json.document "MongoDB" (entry k v) = .ok (.map [(k, v)]) := rfl
  rw [Mongo.clause?, hdocument, Result.ok_bind]
  simp only [hreads, Result.ok_bind]
  rfl

theorem Reads.isNothing {document : Value} {c : Clause} (h : Reads document c) :
    document.isNothing = false := by
  obtain ⟨k, v, rfl, -⟩ := h
  rfl

/-- A document that names a field states the conditions on it. -/
theorem entryClauses_field {plan : ParsePlan} {depth : Nat} {field : String}
    (hname : IsName field) (v : Value) :
    entryClauses plan depth [(field, v)] = conditions plan depth field v := by
  -- a name of a field is none of the keys that documents give a meaning
  have hne : ∀ key : String, key.toList.head? = some '$' → field ≠ key := by
    rintro key hkey rfl
    exact hname hkey
  have hoperator : isOperatorKey field = false := beq_eq_false_iff_ne.mpr hname
  rw [entryClauses, entryClauses]
  simp only [hne "$and" rfl, hne "$or" rfl, hne "$nor" rfl, hne "$not" rfl, hne "$expr" rfl,
    hoperator, decide_false, Bool.or_self, Bool.false_eq_true, if_false]
  cases conditions plan depth field v with
  | error _ => rfl
  | ok cs => exact congrArg Except.ok (List.append_nil cs)

/-- Conditions on a field are a clause of their document. -/
theorem reads_conditions {field : String} (hname : IsName field) {v : Value} {c : Clause}
    (h : ∀ depth, conditions .arrays depth field v = .ok [c]) : Reads (entry field v) c :=
  ⟨field, v, rfl, fun depth => (entryClauses_field hname v).trans (h depth)⟩

/-- An expression is a clause of its document. -/
theorem reads_expression {v : Value} {c : Clause} (h : expression v = .ok (some c)) :
    Reads (entry "$expr" v) c := by
  refine ⟨"$expr", v, rfl, fun depth => ?_⟩
  rw [entryClauses, entryClauses, h]
  rfl

/-! ### Conditions on a field -/

section
variable {field : String} {op : Operator} {v : Value}

theorem range?_singleton (field key : String) (v : Value) : range? field [(key, v)] = none := by
  by_cases hge : key = "$gte"
  · subst hge
    rfl
  · simp [range?, Value.lookup, hge]

theorem objectConditions_singleton {key : String} (hkey : key.toList.head? = some '$')
    (operators : Result (List Clause)) :
    objectConditions field [(key, v)] operators = operators := by
  have hoperator : isOperatorKey key = true := by simp [isOperatorKey, hkey]
  rw [objectConditions, if_pos (by simp [hoperator]), range?_singleton]
  cases operators <;> rfl

/-- An operator other than a negation is the rule that it makes of its field. -/
theorem operators_singleton {plan : ParsePlan} {key : String} {r : Rule}
    (hskip : isSkipped false key = false)
    (hnot : key ≠ "$not") (h : operatorRule field key v = .ok r) (depth : Nat) :
    operators plan depth field (range? field [(key, v)]).isSome [(key, v)] =
      .ok [.rule r] := by
  rw [range?_singleton, operators, operators, Option.isSome_none, hskip, if_neg (by simp),
    if_neg hnot, h]
  rfl

/-- The rule of an operator is the condition of its document. -/
theorem conditions_entry {plan : ParsePlan} {key : String} {r : Rule}
    (hkey : key.toList.head? = some '$')
    (hskip : isSkipped false key = false) (hnot : key ≠ "$not")
    (h : operatorRule field key v = .ok r) (depth : Nat) :
    conditions plan depth field (entry key v) = .ok [.rule r] := by
  rw [entry, conditions, objectConditions_singleton hkey, operators_singleton hskip hnot h]

/-- The complement of the rule is the condition of the negated document. -/
theorem conditions_not {plan : ParsePlan} {key : String} {r : Rule}
    (hkey : key.toList.head? = some '$')
    (hskip : isSkipped false key = false) (hnot : key ≠ "$not")
    (h : operatorRule field key v = .ok r) (depth : Nat) :
    conditions plan depth field (entry "$not" (entry key v)) =
      .ok [.rule (Clause.invertRule r)] := by
  have hnegand : negand plan depth field (entry key v) = .ok [.rule r] := by
    rw [entry, negand, objectConditions_singleton hkey, operators_singleton hskip hnot h]
  have hskip' : isSkipped false "$not" = false := rfl
  rw [entry, conditions, objectConditions_singleton rfl, range?_singleton, operators, operators,
    Option.isSome_none, hskip', if_neg (by simp), if_pos rfl, hnegand]
  rfl

/-- Comparisons and memberships have operators of their own. -/
theorem operatorRule_comparison (hop : op.isComparison = true) (hv : v ≠ .null) :
    operatorRule field (Dialect.mongodbSpelling op) v = .ok (Rule.of field op v) := by
  cases op <;> cases hop <;> cases v <;> first | rfl | exact absurd rfl hv

theorem operatorRule_membership (hop : op.isMembership = true) (items : List Value) :
    operatorRule field (Dialect.mongodbSpelling op) (.list items) =
      .ok (Rule.of field op (.list items)) := by
  cases op <;> cases hop <;> rfl

theorem reads_comparison (hname : IsName field) (hop : op.isComparison = true) (hv : v ≠ .null) :
    Reads (comparison op v field) (.rule (Rule.of field op v)) := by
  refine reads_conditions hname (conditions_entry ?_ ?_ ?_ (operatorRule_comparison hop hv))
  all_goals cases op <;> cases hop <;> decide

theorem reads_membership (hname : IsName field) (hop : op.isMembership = true)
    (items : List Value) :
    Reads (comparison op (.list items) field) (.rule (Rule.of field op (.list items))) := by
  refine reads_conditions hname (conditions_entry ?_ ?_ ?_ (operatorRule_membership hop items))
  all_goals cases op <;> cases hop <;> decide

theorem reads_nullCheck (hname : IsName field) (hop : op.isNullCheck = true) :
    Reads (if op = .notNull then entry field (entry "$ne" .null) else entry field .null)
      (.rule (Rule.of field op .null)) := by
  cases op <;> cases hop
  case null => exact reads_conditions hname fun depth => rfl
  case notNull => exact reads_conditions hname (conditions_entry (by decide) rfl (by decide) rfl)

/-- The rule of a pattern, or its complement under a negation, is the condition of the document
with the pattern. -/
theorem conditions_patternMatch {plan : ParsePlan} {pattern : Value} {r : Rule}
    (h : Pattern.rule (.text "mongodb") (.text field) pattern = .ok r) (depth : Nat) :
    conditions plan depth field (if op.isNegatedText then entry "$not" (entry "$regex" pattern)
        else entry "$regex" pattern) =
      .ok [.rule (if op.isNegatedText then Clause.invertRule r else r)] := by
  have hpattern : operatorRule field "$regex" pattern = .ok r := h
  cases op.isNegatedText with
  | false => exact conditions_entry rfl rfl (by decide) hpattern depth
  | true => exact conditions_not rfl rfl (by decide) hpattern depth

/-- A pattern is the text match that it was made for. -/
theorem reads_patternMatch (hname : IsName field) (hop : op.isTextMatch = true) {s : String}
    (hs : IsMatch op s) :
    Reads (patternMatch op (.text (Pattern.ofText op s)) field)
      (.rule (Rule.of field op (.text s))) := by
  have hpattern : Pattern.rule (.text "mongodb") (.text field) (.text (Pattern.ofText op s)) =
      .ok (Rule.of field (Pattern.matchOf op) (.text s)) := by
    have hread := (Pattern.read?_ofText_iff hop s).mpr hs
    rw [Pattern.rule]
    simp only [hread, String.ofList_toList]
    rfl
  have hmatch : (if op.isNegatedText then
      Clause.invertRule (Rule.of field (Pattern.matchOf op) (.text s))
        else Rule.of field (Pattern.matchOf op) (.text s)) = Rule.of field op (.text s) := by
    have hinverse : Clause.invertRule (Rule.of field op.inverse (.text s)) =
        Rule.of field op (.text s) := by
      have hinvert := Clause.invertRule_ofSource .value field op.inverse (.text s)
      rwa [Operator.inverse_inverse] at hinvert
    rw [Pattern.matchOf]
    split
    · exact hinverse
    · rfl
  exact reads_conditions hname fun depth => hmatch ▸ conditions_patternMatch hpattern depth

end

/-! ### Expressions -/

section
variable {op : Operator}

theorem operand_reference (name : String) :
    operand (reference (.text name)) = .field name := by
  simp [operand, reference]

theorem operand_reference_field {d : Repertoire} {v : Value} (h : d.IsScalar .field v) :
    operand (reference v) = .field v.display := by
  cases h with
  | field => exact operand_reference _

/-- A comparison of two fields. -/
theorem expression_comparison (field : String) (hop : op.isComparison = true) {v : Value}
    (hv : repertoire.IsScalar .field v) :
    expression (entry (Dialect.mongodbSpelling op) (.list [reference (.text field), reference v])) =
      .ok (some (.rule (Rule.ofSource .field field op v))) := by
  have hkey : Dialect.mongodbSpelling op ≠ "$and" ∧ Dialect.mongodbSpelling op ≠ "$or" ∧
      Dialect.mongodbSpelling op ≠ "$not" ∧ comparison? (Dialect.mongodbSpelling op) = some op := by
    cases op <;> cases hop <;> decide
  have hrule : expressionRule (Dialect.mongodbSpelling op) (reference (.text field))
      (reference v) = .ok (Rule.ofSource .field field op v) := by
    unfold expressionRule
    simp only [hkey.2.2.2, operand_reference, operand_reference_field hv]
    exact Clause.comparison_ofSource hv field op false
  rw [entry, expression, operation]
  simp only [hkey.1, hkey.2.1, hkey.2.2.1, decide_false, Bool.or_self, Bool.false_eq_true,
    if_false, hrule]
  rfl

/-- A membership of a field in others. -/
theorem expression_in (field : String) {items : List Value} (hne : items ≠ [])
    (h : ∀ v ∈ items, repertoire.IsItem .field v) :
    expression (entry "$in" (.list [reference (.text field), .list (items.map reference)])) =
      .ok (some (.rule (Rule.ofSource .field field .isIn (.list items)))) := by
  have hoperands : (items.map reference).map operand = items.map (.ofSource .field) := by
    rw [List.map_map]
    exact List.map_congr_left fun v hv => operand_reference_field ((h v hv).isScalar listed)
  have hrule : expressionRule "$in" (reference (.text field)) (.list (items.map reference)) =
      .ok (Rule.ofSource .field field .isIn (.list items)) := by
    have hkey : comparison? "$in" = none := by decide
    unfold expressionRule
    simp only [hkey, operand_reference, hoperands]
    exact Clause.listRule_ofSource hne h field .isIn
  rw [entry, expression, operation]
  simp only [hrule]
  rfl

/-- A rule between fields that is a membership, negated or not. -/
theorem reads_fieldMembership (field : String) (hop : op.isMembership = true)
    {items : List Value} (hne : items ≠ []) (h : ∀ v ∈ items, repertoire.IsItem .field v) :
    ∃ out, fieldComparison op (Rule.ofSource .field field op (.list items)) = .ok out ∧
      Reads out (.rule (Rule.ofSource .field field op (.list items))) := by
  have hitems := Repertoire.toItems_of_isItem h
  have hin := expression_in field hne h
  cases op <;> cases hop
  case isIn =>
    refine ⟨_, ?_, reads_expression hin⟩
    simp only [fieldComparison, Rule.ofSource, hitems]
    rfl
  case notIn =>
    have hnot : expression (entry "$not" (.list [entry "$in" (.list [reference (.text field),
        .list (items.map reference)])])) =
          .ok (some (.rule (Rule.ofSource .field field .notIn (.list items)))) := by
      have hinvert := Clause.invertRule_ofSource .field field .isIn (.list items)
      rw [entry, expression, operation, if_neg (by simp), if_pos rfl]
      simp only [hin]
      exact congrArg (Except.ok ∘ some ∘ Clause.rule) hinvert
    refine ⟨_, ?_, reads_expression hnot⟩
    simp only [fieldComparison, Rule.ofSource, hitems]
    rfl

/-- A rule between fields that is a range, as two comparisons. -/
theorem reads_fieldRange (field : String) (hop : op.isRange = true) {low high : Value}
    (hlow : repertoire.IsItem .field low) (hhigh : repertoire.IsItem .field high) :
    ∃ out, fieldComparison op (Rule.ofSource .field field op (.list [low, high])) = .ok out ∧
      Reads out (Clause.rangePair .field field op low high) := by
  have hbounds := Repertoire.bounds?_of_isItem hlow hhigh
  have hpair : ∀ (key : String) (j : Junction) (op op' : Operator), key = "$and" ∨ key = "$or" →
      junction key = j → op.isComparison = true → op'.isComparison = true →
      expression (entry key (.list
        [entry (Dialect.mongodbSpelling op) (.list [reference (.text field), reference low]),
          entry (Dialect.mongodbSpelling op') (.list [reference (.text field), reference high])])) =
        .ok (some (Clause.join j false [.rule (Rule.ofSource .field field op low),
          .rule (Rule.ofSource .field field op' high)])) := by
    intro key j op op' hkey hj hop hop'
    have hfirst := expression_comparison field hop (hlow.isScalar listed)
    have hsecond := expression_comparison field hop' (hhigh.isScalar listed)
    rw [entry, expression, operation, if_pos (by simpa using hkey), expressions, expressions,
      expressions, hfirst, hsecond, hj]
    rfl
  cases op <;> cases hop
  case between =>
    refine ⟨_, ?_, reads_expression (hpair "$and" .and .ge .le (Or.inl rfl) rfl rfl rfl)⟩
    simp only [fieldComparison, Rule.ofSource, hbounds]
    rfl
  case notBetween =>
    refine ⟨_, ?_, reads_expression (hpair "$or" .or .lt .gt (Or.inr rfl) rfl rfl rfl)⟩
    simp only [fieldComparison, Rule.ofSource, hbounds]
    rfl

end

/-! ### Groups -/

/-- The key of the documents of a group. -/
def groupKey : Junction → String
  | .and => "$and"
  | .or => "$or"

/-- Documents under a logical operator state the group of their clauses. -/
theorem reads_group (j : Junction) {outs : List Value} {head : Clause} {cs : List Clause}
    (h : List.Forall₂ Reads outs (head :: cs)) :
    Reads (entry (groupKey j) (.list outs)) (Clause.join j false (head :: cs)) := by
  refine ⟨groupKey j, .list outs, rfl, fun depth => ?_⟩
  have hlogical : logical .arrays depth (groupKey j) (.list outs) =
      .ok (Clause.join j false (head :: cs)) := by
    rw [logical]
    cases j <;> simp only [groupKey, documents_of_reads h] <;> rfl
  rw [entryClauses, entryClauses, hlogical]
  cases j <;> rfl

/-- The negated disjunction of one such document is the negated group. -/
theorem reads_nor (j : Junction) {outs : List Value} {head : Clause} {cs : List Clause}
    (h : List.Forall₂ Reads outs (head :: cs)) :
    Reads (entry "$nor" (.list [entry (groupKey j) (.list outs)]))
      (Clause.join j true (head :: cs)) := by
  refine ⟨"$nor", _, rfl, fun depth => ?_⟩
  have hlogical : logical .arrays depth "$nor" (.list [entry (groupKey j) (.list outs)]) =
      .ok (Clause.join j true (head :: cs)) := by
    rw [logical]
    simp only [documents_of_reads (.cons (reads_group j h) .nil)]
    rfl
  rw [entryClauses, entryClauses, hlogical]
  rfl

theorem joinGroup_eq (j : Junction) (negated : Bool) (outs : List Value) :
    joinGroup (.text j.name) negated outs =
      .ok (if negated then entry "$nor" (.list [entry (groupKey j) (.list outs)])
        else entry (groupKey j) (.list outs)) := by
  cases j <;> rfl

/-- The members of a group make up its document. -/
theorem exists_joinGroup (j : Junction) (negated : Bool) {outs : List Value} {head : Clause}
    {cs : List Clause} (h : List.Forall₂ Reads outs (head :: cs)) :
    ∃ out, joinGroup (.text j.name) negated outs = .ok out ∧
      Reads out (Clause.join j negated (head :: cs)) := by
  refine ⟨_, joinGroup_eq j negated outs, ?_⟩
  cases negated with
  | false => exact reads_group j h
  | true => exact reads_nor j h

/-- A range is one condition with two bounds, or two documents under `$or`. -/
theorem reads_range {field : String} {op : Operator} (hname : IsName field)
    (hop : op.isRange = true) {low high : Value} (hlow : low ≠ .null) (hhigh : high ≠ .null) :
    ∃ c, Reads (range op low high field) c ∧
      Clause.Builds traits c (.rule (Rule.ofSource .value field op (.list [low, high]))) := by
  cases op <;> cases hop
  case between =>
    refine ⟨_, reads_conditions hname fun depth => ?_, Clause.builds_rule _⟩
    -- the bounds are one condition, and are skipped one by one
    have hskip : isSkipped true "$gte" = true ∧ isSkipped true "$lte" = true := ⟨rfl, rfl⟩
    have hrange : range? field [("$gte", low), ("$lte", high)] =
        some (Rule.of field .between (.list [low, high])) := rfl
    have hoperator : isOperatorKey "$gte" = true := by decide
    rw [conditions, objectConditions, if_pos (by simp [hoperator]), hrange, operators, operators,
      operators, Option.isSome_some, hskip.1, hskip.2]
    rfl
  case notBetween =>
    have hfirst := reads_comparison hname (rfl : Operator.lt.isComparison = true) hlow
    have hsecond := reads_comparison hname (rfl : Operator.gt.isComparison = true) hhigh
    have hpair := reads_group .or (.cons hfirst (.cons hsecond .nil))
    have hop : Operator.notBetween.isRange = true := rfl
    exact ⟨_, hpair, Clause.builds_rangePair rfl (Or.inl rfl) hop field low high⟩

/-! ### Rules -/

section
variable {field : String} {op : Operator} {v : Value}

theorem ruleOperator_ofSource (source : ValueSource) (field : String) (op : Operator)
    (v id : Value) :
    Language.ruleOperator .mongodb { Rule.ofSource source field op v with id := id } = .ok op := by
  rw [Language.ruleOperator, Rule.operator?_ofSource]

/-- A rule between fields is an expression. -/
theorem writeRule_field (field : String) (op : Operator) (v id : Value) :
    writeRule (.usual .mongodb) { Rule.ofSource .field field op v with id := id } =
      fieldComparison op (Rule.ofSource .field field op v) := by
  rw [writeRule, ruleOperator_ofSource, Result.ok_bind]
  rfl

/-- A rule with values of its own is a condition on its field. -/
theorem writeRule_value (hnull : op.isNullCheck = false) {document : String → Value}
    (h : ownRule .never op v = some document) (id : Value) :
    writeRule (.usual .mongodb) { Rule.ofSource .value field op v with id := id } =
      .ok (document field) := by
  have hnull' : op ≠ .null ∧ op ≠ .notNull := by
    constructor <;> rintro rfl <;> cases hnull
  have hsupplied : (FormatPlan.usual .mongodb).suppliedValue
      { Rule.ofSource .value field op v with id := id } op = .ok none := by
    rw [FormatPlan.suppliedValue]
    split <;> rfl
  have hcondition : condition? (.usual .mongodb) op
      { Rule.ofSource .value field op v with id := id } = .ok (some document) := by
    rw [condition?, if_neg hnull'.1, if_neg hnull'.2, hsupplied]
    exact congrArg Except.ok h
  rw [writeRule, ruleOperator_ofSource, Result.ok_bind]
  simp only [hcondition]
  rfl

/-- A null check is a condition on its field. -/
theorem writeRule_nullCheck (hop : op.isNullCheck = true) (id : Value) :
    writeRule (.usual .mongodb) { Rule.ofSource .value field op .null with id := id } =
      .ok (if op = .notNull then entry field (entry "$ne" .null) else entry field .null) := by
  rw [writeRule, ruleOperator_ofSource, Result.ok_bind]
  cases op <;> cases hop <;> rfl

/-- The rule is written as a document that states a clause which becomes it. -/
def Echoes (source : ValueSource) (field : String) (op : Operator) (v id : Value) : Prop :=
  ∃ out c, writeRule (.usual .mongodb) { Rule.ofSource source field op v with id := id } =
      .ok out ∧ Reads out c ∧
    Clause.Builds traits c (.rule (Rule.ofSource source field op v))

theorem echoes_nullCheck (hname : IsName field) (hop : op.isNullCheck = true) (id : Value) :
    Echoes .value field op .null id :=
  ⟨_, _, writeRule_nullCheck hop id, reads_nullCheck hname hop, Clause.builds_rule _⟩

theorem echoes_comparison {source : ValueSource} (hname : IsName field)
    (hop : op.isComparison = true) (h : repertoire.IsScalar source v) (id : Value) :
    Echoes source field op v id := by
  have hother := Operator.of_isComparison hop
  rcases h.source_eq with rfl | rfl
  · have hown : ownRule .never op v = some (comparison op v) := by
      simp [ownRule, hother, Value.withNumbers_never]
    have hnull : v ≠ .null := by rintro rfl; cases h
    exact ⟨_, _, writeRule_value hother.1 hown id, reads_comparison hname hop hnull,
      Clause.builds_rule _⟩
  · refine ⟨_, _, ?_, reads_expression (expression_comparison field hop h), Clause.builds_rule _⟩
    rw [writeRule_field]
    simp [fieldComparison, hother]
    rfl

theorem echoes_textMatch {source : ValueSource} (hname : IsName field)
    (hop : op.isTextMatch = true) (h : repertoire.IsMatched op source v) (id : Value) :
    Echoes source field op v id := by
  have hother := Operator.of_isTextMatch hop
  cases h with
  | field hfields => exact hfields.elim
  | @text s hs =>
    have hown : ownRule .never op (.text s) =
        some (patternMatch op (.text (Pattern.ofText op s))) := by
      simp [ownRule, hother, hop]
    exact ⟨_, _, writeRule_value hother.1 hown id, reads_patternMatch hname hop hs,
      Clause.builds_rule _⟩

theorem echoes_membership {source : ValueSource} (hname : IsName field)
    (hop : op.isMembership = true) {items : List Value} (hne : items ≠ [])
    (h : ∀ v ∈ items, repertoire.IsItem source v) (id : Value) :
    Echoes source field op (.list items) id := by
  obtain ⟨item, hitem⟩ := List.exists_mem_of_ne_nil _ hne
  rcases (h item hitem).source_eq with rfl | rfl
  · have hitems := Repertoire.toItems_of_isItem h
    have hown : ownRule .never op (.list items) = some (comparison op (.list items)) := by
      obtain ⟨first, rest, rfl⟩ := List.exists_cons_of_ne_nil hne
      simp only [ownRule, hop, hitems, if_true, Value.map_withNumbers_never]
    exact ⟨_, _, writeRule_value (Operator.of_isMembership hop).1 hown id,
      reads_membership hname hop items, Clause.builds_rule _⟩
  · obtain ⟨out, hout, hreads⟩ := reads_fieldMembership field hop hne h
    exact ⟨out, _, (writeRule_field field op _ id).trans hout, hreads, Clause.builds_rule _⟩

theorem echoes_range {source : ValueSource} (hname : IsName field) (hop : op.isRange = true)
    {low high : Value} (hlow : repertoire.IsItem source low)
    (hhigh : repertoire.IsItem source high) (id : Value) :
    Echoes source field op (.list [low, high]) id := by
  rcases hlow.source_eq with rfl | rfl
  · have hother := Operator.of_isRange hop
    have hbounds := Repertoire.bounds?_of_isItem hlow hhigh
    have hown : ownRule .never op (.list [low, high]) = some (range op low high) := by
      rw [ownRule, hother.2.1, hop, hbounds]
      simp only [Value.withNumbers_never]
      rfl
    have hlow' : low ≠ .null := by rintro rfl; cases hlow
    have hhigh' : high ≠ .null := by rintro rfl; cases hhigh
    obtain ⟨c, hreads, hbuilds⟩ := reads_range hname hop hlow' hhigh'
    exact ⟨_, c, writeRule_value hother.1 hown id, hreads, hbuilds⟩
  · obtain ⟨out, hout, hreads⟩ := reads_fieldRange field hop hlow hhigh
    -- two expressions are two comparisons, which are recovered as the range
    exact ⟨out, _, (writeRule_field field op _ id).trans hout, hreads,
      Clause.builds_rangePair rfl (Or.inr rfl) hop field low high⟩

/-- Canonical rules of every kind are. -/
theorem echoes_of_takes {source : ValueSource} (hname : IsName field)
    (h : repertoire.Takes op source v) (id : Value) : Echoes source field op v id := by
  cases h with
  | nullCheck hop => exact echoes_nullCheck hname hop id
  | comparison hop h => exact echoes_comparison hname hop h id
  | textMatch hop h => exact echoes_textMatch hname hop h id
  | membership hop hne h => exact echoes_membership hname hop hne h id
  | range hop hlow hhigh => exact echoes_range hname hop hlow hhigh id

end

/-! ### Keys -/

/-- Names of fields are texts, so no key is anything else. -/
theorem writeNode_keyWriter {isRoot : Bool} {t : Node} (h : t.Canonical repertoire isRoot)
    (path : Path) : keyWriter.writeNode (.usual .mongodb) none path t = pure none := by
  induction h generalizing path with
  | @rule r hr =>
    obtain @⟨source, field, op, v, id, hname, htakes⟩ := hr
    obtain ⟨out, c, hout, -⟩ := echoes_of_takes hname htakes id
    have hwrite : ∀ context, keyWriter.write (.usual .mongodb)
        { Rule.ofSource source field op v with id := id } context = pure false := by
      intro context
      simp only [keyWriter, hout]
      simp [Rule.ofSource, Value.asText?]
      rfl
    have hexpress : keyWriter.canExpress { Rule.ofSource source field op v with id := id } = true :=
      Writer.canExpress_of_ne_qdrant (by decide) (Rule.operator?_ofSource ..)
    rw [Writer.writeNode_rule hexpress rfl hwrite]
    rfl
  | @group isRoot negated j children id _ _ _ _ ih =>
    have hnone : List.Forall₂ (fun child out => ∀ path, path ≠ [] →
        keyWriter.writeNode (.usual .mongodb) none path child = pure out)
          children (children.map fun _ => none) :=
      List.forall₂_map_right_iff.mpr (List.forall₂_same.mpr fun child hc path _ => ih child hc path)
    have hmembers : keyWriter.writeMembers (.usual .mongodb) none path 0 children = pure [] := by
      have hempty : keyWriter.writeMembers (.usual .mongodb) none path 0 children =
          pure ((children.map fun _ => none).flatMap Option.toList) :=
        Writer.writeMembers_of_forall₂ hnone 0
      rw [hempty, List.flatMap_map]
      exact congrArg pure (List.flatMap_eq_nil_iff.mpr fun _ _ => rfl)
    rw [Writer.writeNode, hmembers]
    rfl

/-- The documents of the trees have no foreign keys. -/
theorem hasForeignKey_eq_false {combinator : Value} {flags : GroupFlags} {children : List Node}
    (h : Node.Canonical repertoire true (.group combinator flags children)) :
    hasForeignKey (.usual .mongodb) (.group combinator flags children) = .ok false := by
  rw [hasForeignKey, Echo.run_of_writeNode h.standardMember_eq (writeNode_keyWriter h [])]
  rfl

/-! ### Round trip -/

/-- Documents are read as what they were written from. -/
def echo : Echo writer .mongodb traits repertoire where
  Reads := Reads
  whole := clause? .arrays
  always := always
  express := by decide
  isEmpty_of_reads := Reads.isNothing
  rule id hname htakes := by
    obtain ⟨out, c, hout, hreads, hbuilds⟩ := echoes_of_takes hname htakes id
    refine ⟨out, c, fun context => ?_, hreads, hbuilds⟩
    simp only [writer, hout]
    rfl
  range hdistinct _ hnegated := by
    subst hnegated
    simpa using hdistinct rfl
  group _ _ _ hreads := exists_joinGroup _ _ hreads
  root {negated j children outs head cs} hcanonical hdistinct hbuilds hreads := by
    obtain ⟨out, hout, hdocument⟩ := exists_joinGroup j negated hreads
    refine ⟨out, _, hout, hdocument.isNothing, hdocument.clause?,
      Clause.isConstant_join hbuilds, ?_⟩
    cases negated with
    | true => rfl
    | false =>
      exact Clause.unwrapRoot_join rfl hbuilds fun hlone => hdistinct rfl hlone.of_withoutIds
  blank := by
    have hitem : itemDocument .arrays 2 "$and" (entry "$expr" (.bool true)) = .ok none := by
      rw [entry, itemDocument, entryClauses, entryClauses, expression]
      rfl
    have hdocuments : documents .arrays 2 "$and" [entry "$expr" (.bool true)] = .ok [] := by
      rw [documents, documents, hitem]
      rfl
    have hlogical : logical .arrays 1 "$and" (.list [entry "$expr" (.bool true)]) =
        .ok (.empty false) := by
      rw [logical]
      exact congrArg (· >>= fun cs => pure (Clause.join .and false cs)) hdocuments
    have hwhole : clause? .arrays always = .ok (some (.empty false)) := by
      have hdocument : Json.document "MongoDB" always = .ok always := rfl
      rw [clause?, hdocument, Result.ok_bind, always, entry]
      simp only [entryClauses, hlogical]
      rfl
    rw [hwhole]
    exact Clause.toTree_empty

end Mongo

/-- **Round trip.**  Every tree that documents tell apart from others is read back
from its document. -/
theorem reread_mongodb {t : Node} (h : t.Canonical Mongo.repertoire true) :
    Query.reread "mongodb" t = .ok t.withoutIds := by
  obtain ⟨output, hrun, hread⟩ := Mongo.echo.roundTrip h
  cases h with
  | @group _ negated j children id hnil hjunction hdistinct hchildren =>
    have hkeys := Mongo.hasForeignKey_eq_false (.group id hnil hjunction hdistinct hchildren)
    refine Query.reread_eq rfl rfl rfl ?_ ?_ hread
    · rw [Query.write, Mongo.format, Writer.within_none, hrun]
      rfl
    · have hformat : (FormatPlan.usual .mongodb).style.format = .dialect .mongodb := rfl
      have hinput : Query.ofInput (.group (.text j.name) { negated := negated, id := id }
        children) = .ok (.group (.text j.name) { negated := negated, id := id } children) := rfl
      rw [Query.Source.ofOutput, if_pos hformat, hinput, Result.ok_bind, hkeys]
      rfl

theorem reread_mongodb_specimen :
    Query.reread "mongodb" Node.specimen = .ok Node.specimen.withoutIds := by
  have hname : ∀ name ∈ ["name", "age", "rank"], Mongo.IsName name := by decide
  have hlisted : ∀ name ∈ ["grade", "level"],
      Mongo.IsName name ∧ name ≠ "" ∧ Text.trim name = name := by decide
  refine reread_mongodb (Node.canonical_specimen hname hlisted ?_ Node.isTold_pair)
  exact ⟨by decide, fun h => by cases h⟩

/-- A tree of a single rule, between a field and others in a list. -/
def Mongo.amongFields (names : List String) : Node :=
  .group (.text "and") {} [.rule (Rule.ofSource .field "f" .isIn (.list (names.map .text)))]

/-- Names in lists lose their outer blanks, so such a tree is not read back. -/
theorem reread_mongodb_blank :
    Mongo.IsName "f" ∧ Mongo.IsName " a" ∧
      Query.reread "mongodb" (Mongo.amongFields [" a"]) = .ok (Mongo.amongFields ["a"]) ∧
      Query.reread "mongodb" (Mongo.amongFields [" a"]) ≠
        .ok (Mongo.amongFields [" a"]).withoutIds := by
  have hreread : Query.reread "mongodb" (Mongo.amongFields [" a"]) =
      .ok (Mongo.amongFields ["a"]) := rfl
  refine ⟨by decide, by decide, hreread, ?_⟩
  rw [hreread]
  simp [Mongo.amongFields, Rule.ofSource, Node.withoutIds_group, Node.withoutIds, Rule.withoutId]

end RuleTree
