import RuleTree.Clause
import RuleTree.Source.Reading
import RuleTree.Value.Items

/-! # Canonical trees

The trees that a dialect writes without loss.  They are standard trees without
disabled parts: `and` or `or` joins the members of every group, a group of fewer
than two members has `and`, and only the root may be empty, in which case it is
not negated.  Operators have their canonical names and every rule has a value of
the kind that its operator takes.

The dialects differ in the names of fields, in the texts that text matches
compare with, and in the groups that they cannot tell from others.  A
`Repertoire` holds these differences, and `Node.Canonical` is the class of trees
that it makes.
-/
namespace RuleTree

/-- A step that succeeds hands its result on. -/
theorem Result.ok_bind {α β : Type} (a : α) (f : α → Result β) : (Except.ok a >>= f) = f a := rfl

/-! ### Ids -/

/-- The rule without its id. -/
def Rule.withoutId (r : Rule) : Rule := { r with id := .null }

/-- The flags of a group without its id. -/
def GroupFlags.withoutId (flags : GroupFlags) : GroupFlags := { flags with id := .null }

namespace Node

mutual
/-- The tree without the ids of its rules and groups. -/
def withoutIds : Node → Node
  | .rule r => .rule r.withoutId
  | .group combinator flags children =>
    .group combinator flags.withoutId (withoutIdsAll children)
  | .interleaved flags items => .interleaved flags.withoutId (withoutIdsAll items)
  | .bare v => .bare v

/-- The trees without their ids. -/
def withoutIdsAll : List Node → List Node
  | [] => []
  | node :: rest => withoutIds node :: withoutIdsAll rest
end

theorem withoutIdsAll_eq_map (nodes : List Node) :
    withoutIdsAll nodes = nodes.map withoutIds := by
  induction nodes with
  | nil => rfl
  | cons node nodes ih => rw [withoutIdsAll, ih, List.map_cons]

theorem withoutIds_group (combinator : Value) (flags : GroupFlags) (children : List Node) :
    withoutIds (.group combinator flags children) =
      .group combinator flags.withoutId (children.map withoutIds) := by
  rw [withoutIds, withoutIdsAll_eq_map]

/-- Only rules become rules. -/
theorem eq_rule_of_withoutIds {node : Node} {r : Rule} (h : node.withoutIds = .rule r) :
    ∃ s, node = .rule s ∧ s.withoutId = r := by
  cases node with
  | rule s => exact ⟨s, rfl, Node.rule.inj h⟩
  | group => rw [withoutIds] at h; cases h
  | interleaved => rw [withoutIds] at h; cases h
  | bare => rw [withoutIds] at h; cases h

end Node

/-! ### Operators -/

namespace Operator

/-- The operators that compare with one value and are no text matches. -/
def isComparison : Operator → Bool
  | .eq | .ne | .lt | .gt | .le | .ge => true
  | _ => false

theorem isComparison_iff {op : Operator} :
    op.isComparison = true ↔ op.isNullCheck = false ∧ op.isMembership = false ∧
      op.isRange = false ∧ op.isTextMatch = false := by
  cases op <;> decide

theorem of_isComparison {op : Operator} (h : op.isComparison = true) :
    op.isNullCheck = false ∧ op.isMembership = false ∧ op.isRange = false ∧
      op.isTextMatch = false := isComparison_iff.mp h

theorem of_isTextMatch {op : Operator} (h : op.isTextMatch = true) :
    op.isNullCheck = false ∧ op.isMembership = false ∧ op.isRange = false := by
  cases op <;> cases h <;> decide

theorem of_isMembership {op : Operator} (h : op.isMembership = true) :
    op.isNullCheck = false ∧ op = if op = .notIn then .notIn else .isIn := by
  cases op <;> cases h <;> decide

theorem of_isRange {op : Operator} (h : op.isRange = true) :
    op.isNullCheck = false ∧ op.isMembership = false ∧
      op = if op = .notBetween then .notBetween else .between := by
  cases op <;> cases h <;> decide

/-- Canonical names are names of their operators. -/
@[simp] theorem ofName?_name (op : Operator) : ofName? op.name = some op := by
  cases op <;> decide

@[simp] theorem ofValue?_toValue (op : Operator) : ofValue? op.toValue = some op :=
  ofName?_name op

end Operator

namespace Rule

/-- The rule `field operator value` with values from a source. -/
def ofSource (source : ValueSource) (field : String) (op : Operator) (v : Value) : Rule :=
  { field := .text field, operator := op.toValue, value := v, source := source }

@[simp] theorem operator?_ofSource (source : ValueSource) (field : String) (op : Operator)
    (v id : Value) : ({ ofSource source field op v with id := id } : Rule).operator? = some op :=
  Operator.ofValue?_toValue op

/-- The operator of a rule is found whatever the dialect. -/
theorem resolve_of_operator? {r : Rule} {op : Operator} (h : r.operator? = some op)
    (dialect : Value) : Operator.resolve r.operator dialect = .ok op := by
  have hop : Operator.ofValue? r.operator = some op := h
  rw [Operator.resolve, hop]

end Rule

/-! ### Classes of trees -/

/-- What a dialect tells apart. -/
structure Repertoire where
  /-- The names of fields. -/
  IsName : String → Prop
  /-- The names of fields in a row of several, which are neither empty nor have
  blanks at their ends. -/
  IsListed : String → Prop := IsName
  listed {name : String} : IsListed name → name ≠ "" ∧ Text.trim name = name
  /-- The texts that a text match compares with. -/
  IsMatch : Operator → String → Prop := fun _ _ => True
  /-- Whether text matches compare with other fields too. -/
  matchesFields : Prop := True
  /-- The groups that no other group is written as, given whether they are the
  root and negated, their combinator and their members. -/
  IsDistinct : Bool → Bool → Junction → List Node → Prop := fun _ _ _ _ => True

namespace Repertoire
variable (d : Repertoire)

/-- The values of comparisons: a literal, or the name of another field. -/
inductive IsScalar : ValueSource → Value → Prop where
  | text (s : String) : IsScalar .value (.text s)
  | int (n : Int) : IsScalar .value (.int n)
  | bool (b : Bool) : IsScalar .value (.bool b)
  | field {name : String} : d.IsName name → IsScalar .field (.text name)

/-- The items of multi-value rules.  Texts are neither empty nor do they have
blanks at their ends. -/
inductive IsItem : ValueSource → Value → Prop where
  | text {s : String} : s ≠ "" → Text.trim s = s → IsItem .value (.text s)
  | int (n : Int) : IsItem .value (.int n)
  | bool (b : Bool) : IsItem .value (.bool b)
  | field {name : String} : d.IsListed name → IsItem .field (.text name)

/-- The values of text matches. -/
inductive IsMatched (op : Operator) : ValueSource → Value → Prop where
  | text {s : String} : d.IsMatch op s → IsMatched op .value (.text s)
  | field {name : String} : d.matchesFields → d.IsName name → IsMatched op .field (.text name)

/-- The values that an operator takes from a source. -/
inductive Takes (op : Operator) : ValueSource → Value → Prop where
  | nullCheck : op.isNullCheck = true → Takes op .value .null
  | comparison {source : ValueSource} {v : Value} :
      op.isComparison = true → d.IsScalar source v → Takes op source v
  | textMatch {source : ValueSource} {v : Value} :
      op.isTextMatch = true → d.IsMatched op source v → Takes op source v
  | membership {source : ValueSource} {items : List Value} :
      op.isMembership = true → items ≠ [] → (∀ v ∈ items, d.IsItem source v) →
      Takes op source (.list items)
  | range {source : ValueSource} {low high : Value} :
      op.isRange = true → d.IsItem source low → d.IsItem source high →
      Takes op source (.list [low, high])

variable {d}

theorem IsScalar.source_eq {source : ValueSource} {v : Value} (h : d.IsScalar source v) :
    source = .value ∨ source = .field := by
  cases h <;> simp

theorem IsItem.source_eq {source : ValueSource} {v : Value} (h : d.IsItem source v) :
    source = .value ∨ source = .field := by
  cases h <;> simp

/-- Values are literals or the names of other fields. -/
theorem Takes.source_eq {op : Operator} {source : ValueSource} {v : Value}
    (h : d.Takes op source v) : source = .value ∨ source = .field := by
  cases h with
  | nullCheck => exact Or.inl rfl
  | comparison _ h => exact h.source_eq
  | textMatch _ h => cases h <;> simp
  | membership _ hne h =>
    obtain ⟨item, hitem⟩ := List.exists_mem_of_ne_nil _ hne
    exact (h item hitem).source_eq
  | range _ h _ => exact h.source_eq

/-- Items are not blank, and stand as they are when they are trimmed. -/
theorem IsItem.trimmed {source : ValueSource} {v : Value} (h : d.IsItem source v) :
    v.trimmed = v ∧ v.isBlankValue = false := by
  cases h with
  | text hne htrim => simp [Value.trimmed, Value.isBlankValue, htrim, hne]
  | int n => exact ⟨rfl, rfl⟩
  | bool b => exact ⟨rfl, rfl⟩
  | field hname => simp [Value.trimmed, Value.isBlankValue, d.listed hname]

/-- Items are scalars where names may stand in rows. -/
theorem IsItem.isScalar (hd : ∀ name, d.IsListed name → d.IsName name) {source : ValueSource}
    {v : Value} (h : d.IsItem source v) : d.IsScalar source v := by
  cases h with
  | text => exact .text _
  | int n => exact .int n
  | bool b => exact .bool b
  | field hname => exact .field (hd _ hname)

/-- Text matches compare with scalars. -/
theorem IsMatched.isScalar {op : Operator} {source : ValueSource} {v : Value}
    (h : d.IsMatched op source v) : d.IsScalar source v := by
  cases h with
  | text => exact .text _
  | field _ hname => exact .field hname

/-- Lists of items are read as they are. -/
theorem toItems_of_isItem {source : ValueSource} {items : List Value}
    (h : ∀ v ∈ items, d.IsItem source v) : (Value.list items).toItems = items := by
  have hmap : items.map Value.trimmed = items :=
    (List.map_congr_left fun v hv => (h v hv).trimmed.1).trans (List.map_id items)
  rw [Value.toItems, Value.rawItems, hmap]
  exact List.filter_eq_self.mpr fun v hv => by simp [(h v hv).trimmed.2]

/-- The bounds of a range of items are the items. -/
theorem bounds?_of_isItem {source : ValueSource} {low high : Value}
    (hlow : d.IsItem source low) (hhigh : d.IsItem source high) :
    (Value.list [low, high]).bounds? = some (low, high) := by
  have hplaces : (Value.list [low, high]).toPlaces = [low, high] := by
    simp only [Value.toPlaces, Value.rawItems, List.map_cons, List.map_nil,
      hlow.trimmed.1, hhigh.trimmed.1]
    cases hlow <;> cases hhigh <;> rfl
  simp [Value.bounds?, hplaces, hlow.trimmed.2, hhigh.trimmed.2]

end Repertoire

/-! ### Operands -/

/-- The operand that a value from a source is. -/
def Operand.ofSource : ValueSource → Value → Operand
  | .field, v => .field v.display
  | _, v => .literal v

namespace Clause
variable {d : Repertoire} {source : ValueSource}

/-- A field and a scalar make up their comparison. -/
theorem comparison_ofSource {v : Value} (h : d.IsScalar source v) (field : String)
    (op : Operator) (nullChecks : Bool) :
    comparison (.field field) op (.ofSource source v) nullChecks =
      .ok (Rule.ofSource source field op v) := by
  cases h with
  | field => rfl
  | text | int | bool =>
    cases nullChecks <;> cases op <;> rfl

/-- A field, the sign of an operator and a scalar make up their comparison. -/
theorem comparisonClause_ofSource {dialect : Dialect} {sign : String} {op : Operator}
    (hsign : Operator.unmapFrom (.text sign) (.text dialect.name) = .ok op) {v : Value}
    (h : d.IsScalar source v) (field : String) (nullChecks : Bool) :
    Source.comparisonClause dialect nullChecks (.field field) sign (.ofSource source v) =
      .ok (.rule (Rule.ofSource source field op v)) := by
  rw [Source.comparisonClause, hsign, Result.ok_bind]
  cases op <;> simp only [comparison_ofSource h] <;> rfl

/-- The complement of a canonical rule has the inverse operator. -/
theorem invertRule_ofSource (source : ValueSource) (field : String) (op : Operator) (v : Value) :
    invertRule (Rule.ofSource source field op v) = Rule.ofSource source field op.inverse v := by
  have hop : (Rule.ofSource source field op v).operator? = some op :=
    Operator.ofValue?_toValue op
  rw [invertRule, hop]
  rfl

theorem literals_map (items : List Value) : literals (items.map .literal) = some items := by
  induction items with
  | nil => rfl
  | cons v items ih => rw [List.map_cons, literals, ih]; rfl

theorem fieldNames_map (names : List String) : fieldNames (names.map .field) = some names := by
  induction names with
  | nil => rfl
  | cons name names ih => rw [List.map_cons, fieldNames, ih]; rfl

/-- A field and items make up their multi-value rule. -/
theorem listRule_ofSource {items : List Value} (hne : items ≠ [])
    (h : ∀ v ∈ items, d.IsItem source v) (field : String) (op : Operator) :
    listRule field op (items.map (.ofSource source)) =
      .ok (Rule.ofSource source field op (.list items)) := by
  obtain ⟨item, rest, rfl⟩ := List.exists_cons_of_ne_nil hne
  rcases (h item List.mem_cons_self).source_eq with rfl | rfl
  · rw [listRule, show (item :: rest).map (Operand.ofSource .value) =
      (item :: rest).map .literal from rfl, literals_map]
    rfl
  · have htext : ∀ v ∈ item :: rest, (Value.text v.display) = v := by
      intro v hv
      cases h v hv
      rfl
    have hnames : ((item :: rest).map Value.display).map Value.text = item :: rest := by
      rw [List.map_map]
      exact (List.map_congr_left htext).trans (List.map_id _)
    have hfields : (item :: rest).map (Operand.ofSource .field) =
        ((item :: rest).map Value.display).map .field := by rw [List.map_map]; rfl
    rw [listRule, hfields, fieldNames_map]
    simp only [List.map_cons, literals]
    rw [← List.map_cons, ← List.map_cons, hnames]
    rfl

end Clause

/-- A rule with the canonical name of its operator and a value that the operator
takes. -/
inductive Rule.Canonical (d : Repertoire) : Rule → Prop where
  | intro {source : ValueSource} {field : String} {op : Operator} {v : Value} (id : Value) :
      d.IsName field → d.Takes op source v →
      Canonical d { Rule.ofSource source field op v with id := id }

namespace Node

/-- The canonical trees of a dialect; the flag tells whether the node is the
root, which is a group. -/
inductive Canonical (d : Repertoire) : Bool → Node → Prop where
  | rule {r : Rule} : r.Canonical d → Canonical d false (.rule r)
  | group {isRoot negated : Bool} {junction : Junction} {children : List Node} (id : Value) :
      (children = [] → isRoot = true ∧ negated = false) →
      (children.length < 2 → junction = .and) →
      d.IsDistinct isRoot negated junction children →
      (∀ child ∈ children, Canonical d false child) →
      Canonical d isRoot (.group (.text junction.name) { negated := negated, id := id } children)

/-- A canonical rule in a tree is a canonical rule. -/
theorem Canonical.of_rule {d : Repertoire} {r : Rule} (h : Canonical d false (.rule r)) :
    r.Canonical d := by
  cases h
  assumption

/-! ### Groups that are written as others

Where ranges are written as two comparisons in parentheses, a group of two such
comparisons is read as a range, and where the root has no parentheses, a negated
group that is all there is becomes the root.
-/

/-- Two comparisons of one field that a range is written as. -/
def IsRangePair (junction : Junction) : List Node → Prop
  | [.rule low, .rule high] =>
    low.field = high.field ∧ low.source = high.source ∧
      (junction = .and ∧ low.operator = Operator.ge.toValue ∧
          high.operator = Operator.le.toValue ∨
        junction = .or ∧ low.operator = Operator.lt.toValue ∧
          high.operator = Operator.gt.toValue)
  | _ => False

/-- A single negated group. -/
def IsLoneNegation : List Node → Prop
  | [.group _ flags _] => flags.negated = true
  | _ => False

theorem IsLoneNegation.of_withoutIds {children : List Node}
    (h : IsLoneNegation (children.map withoutIds)) : IsLoneNegation children := by
  match children with
  | [] => exact h
  | [.group _ _ _] => exact h
  | [.rule _] => exact h
  | [.interleaved _ _] => exact h
  | [.bare _] => exact h
  | _ :: _ :: _ => simp [IsLoneNegation] at h

/-- A single membership rule. -/
def IsLoneMembership : List Node → Prop
  | [.rule r] => r.operator = Operator.isIn.toValue
  | _ => False

/-- The groups that are told apart where ranges are pairs of comparisons and the
root has no parentheses. -/
def IsTold (isRoot negated : Bool) (junction : Junction) (children : List Node) : Prop :=
  negated = false →
    if isRoot then ¬IsLoneNegation children else ¬IsRangePair junction children

end Node
end RuleTree
