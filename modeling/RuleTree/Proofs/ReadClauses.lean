import RuleTree.Proofs.ReadTrees

/-! # Clauses that are read

Readers make clauses of the rules of which trees that are read consist
(`Clause.IsReadWithin`).  Such a clause becomes such a tree, unless something is wrong with its
source: with its constants or its nesting, or with a field that it names
(`Clause.ends_toTree`).

Under a limit of digits a numeral that is too long is another reason, and it is the only one that
the limit adds.  What is known of the source is a bound on the digits of its literals, or
nothing.  If the bound is the limit, no numeral is too long: the literals of the clause fit
(`Value.FitsWithin`), and so does what is made of them.
-/
namespace RuleTree

/-! ### Rules -/

/-- A literal that is read and written within the bound, if there is one. -/
def Value.FitsWithin (bound : DigitLimit) (v : Value) : Prop := ∀ digits ∈ bound, v.Fits digits

/-- A value of a source with no more digits than the bound, if there is one. -/
def Value.IsBriefWithin (bound : DigitLimit) (v : Value) : Prop :=
  ∀ digits ∈ bound, v.isBrief digits = true

namespace Value.IsBriefWithin
variable {bound : DigitLimit}

theorem fitsWithin {v : Value} (h : v.IsBriefWithin bound) : v.FitsWithin bound :=
  fun digits hdigits => fits_of_isBrief (h digits hdigits)

theorem items {items : List Value} (h : (Value.list items).IsBriefWithin bound) :
    ∀ v ∈ items, v.IsBriefWithin bound :=
  fun v hv digits hdigits => areBrief_iff.mp (h digits hdigits) v hv

theorem entries {entries : List (String × Value)} (h : (Value.map entries).IsBriefWithin bound) :
    ∀ e ∈ entries, e.2.IsBriefWithin bound :=
  fun e he digits hdigits => entriesAreBrief_iff.mp (h digits hdigits) e he

end Value.IsBriefWithin

/-- Of operands only the literals have digits. -/
def Operand.FitsWithin (bound : DigitLimit) : Operand → Prop
  | .field _ => True
  | .literal v => v.FitsWithin bound

/-- A rule as readers make them, with a literal that is read and written within the bound. -/
structure Rule.IsReadWithin (bound : DigitLimit) (matching : Bool) (r : Rule) : Prop where
  shape : r.IsRead matching
  fits : r.comparesFields = false → r.value.FitsWithin bound

namespace Rule.IsReadWithin
variable {limit bound : DigitLimit} {matching : Bool} {r : Rule}

theorem value (field : String) (operator : Operator) {v : Value} (h : v.FitsWithin bound) :
    (Rule.of field operator v).IsReadWithin bound matching :=
  ⟨.value field operator v, fun _ => h⟩

theorem field (field : String) (operator : Operator) (other : String)
    (hmatching : operator.isTextMatch = true → matching = true) :
    (Rule.ofFields field operator (.text other)).IsReadWithin bound matching :=
  ⟨.field field operator other hmatching, nofun⟩

theorem fields (field : String) (operator : Operator) (others : List String)
    (hseveral : operator.isMembership = true ∨ operator.isRange = true) :
    (Rule.ofFields field operator (.list (others.map .text))).IsReadWithin bound matching :=
  ⟨.fields field operator others hseveral, nofun⟩

theorem invert (h : r.IsReadWithin bound matching) :
    (Clause.invertRule r).IsReadWithin bound matching := by
  refine ⟨h.shape.invert, ?_⟩
  rw [Clause.invertRule]
  split <;> exact h.fits

/-- Names of other fields are texts, and a literal fits. -/
theorem isShort (h : r.IsReadWithin bound matching) {digits : Nat} (hdigits : digits ∈ bound) :
    r.value.isShort digits = true := by
  obtain ⟨hshape, hfits⟩ := h
  cases hshape with
  | value => exact (hfits rfl digits hdigits).isShort
  | field => rfl
  | fields field operator others =>
    refine Value.areShort_iff.mpr fun v hv => ?_
    obtain ⟨s, -, rfl⟩ := List.mem_map.mp hv
    rfl

/-- A rule is finished within the bound. -/
theorem reads_finish (h : r.IsReadWithin bound matching) (plan : ParsePlan) :
    (Clause.finish plan r limit).ReadsWithin limit bound
      fun m => m.IsMember ∧ m.IsReadWithin bound matching := by
  have hvalue (digits : Nat) (hdigits : digits ∈ bound) :
      r.comparesFields = false → r.value.Fits digits := fun hliteral =>
    h.fits hliteral digits hdigits
  refine (Result.reads_check fun digits hdigits =>
    Clause.fits_finishing plan (h.isShort hdigits) (hvalue digits hdigits)).bind fun _ _ => ?_
  refine Result.reads_ok ⟨.rule _, .rule (h.shape.finish plan), ?_⟩
  rw [Node.rules_rule]
  exact List.forall_mem_singleton.mpr fun digits hdigits =>
    Clause.isShort_finishRule plan (h.isShort hdigits) (hvalue digits hdigits)

end Rule.IsReadWithin

/-! ### Clauses -/

namespace Clause

/-- A clause as readers make them, of rules with literals that fit. -/
inductive IsReadWithin (bound : DigitLimit) (matching : Bool) : Clause → Prop where
  | rule {r : Rule} : r.IsReadWithin bound matching → IsReadWithin bound matching (.rule r)
  | constant (comparison : String) : IsReadWithin bound matching (.constant comparison)
  | empty (negated : Bool) : IsReadWithin bound matching (.empty negated)
  | group {negated : Bool} {head : Clause} {tail : List (Junction × Clause)} :
      IsReadWithin bound matching head → (∀ e ∈ tail, IsReadWithin bound matching e.2) →
      IsReadWithin bound matching (.group negated head tail)

/-- A clause as readers make them, of whatever literals. -/
abbrev IsRead (matching : Bool) (c : Clause) : Prop := c.IsReadWithin none matching

section
variable {limit bound : DigitLimit} {matching : Bool} {c head : Clause} {cs : List Clause}
  {tail : List (Junction × Clause)} {negated : Bool}

theorem isReadWithin_join (j : Junction) (negated : Bool)
    (h : ∀ c ∈ cs, c.IsReadWithin bound matching) :
    (join j negated cs).IsReadWithin bound matching := by
  cases cs with
  | nil => exact .empty negated
  | cons head rest =>
    obtain ⟨hhead, hrest⟩ := List.forall_mem_cons.mp h
    exact .group hhead (List.forall_mem_map.mpr hrest)

theorem IsReadWithin.reads_negate (h : c.IsReadWithin bound matching) :
    c.negate.ReadsWithin limit bound (IsReadWithin bound matching) := by
  cases h with
  | rule hr => exact Result.reads_ok (.rule hr.invert)
  | constant => exact Result.reads_worded rfl
  | empty negated => exact Result.reads_ok (.empty _)
  | group hhead htail => exact Result.reads_ok (.group hhead htail)

theorem IsReadWithin.unwrapRoot (traits : SourceTraits) (h : c.IsReadWithin bound matching) :
    (unwrapRoot traits c).IsReadWithin bound matching := by
  have hinner {c : Clause} (h : (Clause.group false c []).IsReadWithin bound matching) :
      c.IsReadWithin bound matching := by
    cases h with
    | group hinner _ => exact hinner
  unfold Clause.unwrapRoot
  split
  · split
    · exact hinner h
    · exact h
  · split
    · exact hinner h
    · exact h
  · exact .group h (by simp)
  · exact h

/-! ### Rules of comparisons -/

/-- A comparison of two literals is refused with both of them. -/
theorem reads_twoLiterals {α : Type} {P : α → Prop} {v w : Value} (name : String)
    (hv : v.FitsWithin bound) (hw : w.FitsWithin bound) :
    Result.ReadsWithin limit bound P (ParseFault.twoLiterals v name w).fail := by
  refine Result.reads_fault trivial fun digits hdigits => ?_
  simp [Error.written, ParseFault.written, (hv digits hdigits).isShort, (hw digits hdigits).isShort]

/-- Operands of a comparison that matches no texts. -/
theorem reads_comparison {left : Operand} {operator : Operator} {right : Operand}
    (nullChecks : Bool) (hmatching : operator.isTextMatch = true → matching = true)
    (hleft : left.FitsWithin bound) (hright : right.FitsWithin bound) :
    (comparison left operator right nullChecks).ReadsWithin limit bound
      (Rule.IsReadWithin bound matching) := by
  have hagainst (field : String) (operator : Operator) {v : Value} (hv : v.FitsWithin bound) :
      (comparison.against nullChecks field operator v).IsReadWithin bound matching := by
    unfold comparison.against
    split <;> exact .value _ _ hv
  cases left with
  | field f =>
    cases right with
    | field g => exact Result.reads_ok (.field f operator g hmatching)
    | literal v => exact Result.reads_ok (hagainst f operator hright)
  | literal v =>
    cases right with
    | field f => exact Result.reads_ok (hagainst f _ hleft)
    | literal w => exact reads_twoLiterals _ hleft hright

theorem fitsWithin_of_literals {operands : List Operand} {values : List Value}
    (h : ∀ o ∈ operands, o.FitsWithin bound) (hvalues : literals operands = some values) :
    (Value.list values).FitsWithin bound := by
  refine fun digits hdigits => Value.fits_list ?_
  induction operands generalizing values with
  | nil =>
    obtain rfl := Option.some.inj hvalues
    simp
  | cons o operands ih =>
    obtain ⟨hfirst, hrest⟩ := List.forall_mem_cons.mp h
    cases o with
    | field => cases hvalues
    | literal v =>
      obtain ⟨rest, hliterals, rfl⟩ := Option.map_eq_some_iff.mp hvalues
      exact List.forall_mem_cons.mpr ⟨hfirst digits hdigits, ih hrest hliterals⟩

theorem reads_listRule (field : String) {operator : Operator} {operands : List Operand}
    (hseveral : operator.isMembership = true ∨ operator.isRange = true)
    (hoperands : ∀ o ∈ operands, o.FitsWithin bound) :
    (listRule field operator operands).ReadsWithin limit bound
      (Rule.IsReadWithin bound matching) := by
  unfold listRule
  split
  · rename_i values _ hvalues
    exact Result.reads_ok (.value field operator (fitsWithin_of_literals hoperands hvalues))
  · exact Result.reads_ok (.fields field operator _ hseveral)
  · exact Result.reads_worded rfl

theorem reads_methodRule (dialect : Dialect) (field method : String) {arguments : List Operand}
    (harguments : ∀ o ∈ arguments, o.FitsWithin bound) :
    (methodRule dialect field method arguments).ReadsWithin limit bound
      (Rule.IsReadWithin bound true) := by
  refine (Operator.reads_unmapFrom _ _).bind fun operator _ => ?_
  dsimp only
  split
  · exact Result.reads_unrepresentable _ _
  · split
    · exact Result.reads_ok (.field field operator _ fun _ => rfl)
    · exact Result.reads_ok (.value field operator (harguments _ List.mem_cons_self))
    · exact Result.reads_worded rfl

theorem reads_comparisonClause (dialect : Dialect) (nullChecks : Bool) {left : Operand}
    (sign : String) {right : Operand} (hleft : left.FitsWithin bound)
    (hright : right.FitsWithin bound) :
    (Source.comparisonClause dialect nullChecks left sign right).ReadsWithin limit bound
      (IsReadWithin bound true) := by
  refine (Operator.reads_unmapFrom _ _).bind fun operator _ => ?_
  split
  · rename_i v w
    split
    · exact Result.reads_ok (.constant _)
    · exact reads_twoLiterals _ hleft hright
  · refine (reads_comparison nullChecks (fun _ => rfl) hleft hright).bind fun r hr => ?_
    exact Result.reads_ok (.rule hr)

/-! ### Recovered ranges -/

variable {traits : SourceTraits}

/-- A range is recovered from two comparisons, of one field and with values of one kind. -/
theorem exists_of_recovered? {r : Rule} (h : recovered? traits negated head tail = some r) :
    ∃ (low high : Rule) (j : Junction) (lowOp highOp op : Operator),
      head = .rule low ∧ tail = [(j, .rule high)] ∧
      low.operator? = some lowOp ∧ lowOp.isComparison = true ∧
      high.operator? = some highOp ∧ highOp.isComparison = true ∧
      low.field.equals high.field = true ∧ low.source.equals high.source = true ∧
      op.isRange = true ∧ r = { low with
        operator := op.toValue, value := .list [low.value, high.value]
        disabled := false, id := .null } := by
  rw [recovered?] at h
  split at h
  case isFalse => cases h
  case isTrue =>
    unfold recoverRange? at h
    split at h
    case h_2 => cases h
    case h_1 low j high =>
      split at h
      case isFalse => cases h
      case isTrue hequal =>
        obtain ⟨hfield, hsource⟩ := Bool.and_eq_true_iff.mp hequal
        dsimp only at h
        split at h
        case h_1 hlow hhigh =>
          exact ⟨low, high, _, _, _, .between, rfl, rfl, hlow, rfl, hhigh, rfl, hfield, hsource,
            rfl, (Option.some.inj h).symm⟩
        case h_2 hlow hhigh =>
          exact ⟨low, high, _, _, _, .notBetween, rfl, rfl, hlow, rfl, hhigh, rfl, hfield,
            hsource, rfl, (Option.some.inj h).symm⟩
        case h_3 => cases h

/-- Sources of one name name fields alike. -/
theorem isField_eq_of_equals {source source' : ValueSource}
    (h : source.equals source' = true) : source.isField = source'.isField := by
  cases source <;> cases source' <;> first | rfl | cases h

end
end Clause

/-- The range of two such rules is one, with the bounds that they compare with. -/
theorem Rule.IsRead.range {matching : Bool} {low high : Rule} (hlow : low.IsRead matching)
    (hhigh : high.IsRead matching) {lowOp highOp op : Operator}
    (hlowOp : low.operator? = some lowOp) (hone : lowOp.isComparison = true)
    (hhighOp : high.operator? = some highOp) (hone' : highOp.isComparison = true)
    (hsource : low.source.equals high.source = true) (hop : op.isRange = true) :
    ({ low with
        operator := op.toValue, value := .list [low.value, high.value]
        disabled := false, id := .null } : Rule).IsRead matching := by
  have hsingle {field : String} {operator bound : Operator} {v : Value}
      (hbound : (Rule.ofFields field operator v).operator? = some bound)
      (hbound' : bound.isComparison = true) :
      ¬(operator.isMembership = true ∨ operator.isRange = true) := by
    obtain rfl := Option.some.inj ((Operator.ofValue?_toValue operator).symm.trans hbound)
    obtain ⟨-, hmember, hrange, -⟩ := Operator.of_isComparison hbound'
    simp [hmember, hrange]
  cases hlow with
  | value field => exact .value field op _
  | fields field operator others hseveral => exact absurd hseveral (hsingle hlowOp hone)
  | field field operator other =>
    cases hhigh with
    | value => cases hsource
    | fields field operator others hseveral => exact absurd hseveral (hsingle hhighOp hone')
    | field field' operator other' => exact .fields field op [other, other'] (.inr hop)

/-! ### Trees of clauses -/

namespace Clause
section
variable {limit bound : DigitLimit} {matching : Bool} {c head : Clause}
  {tail : List (Junction × Clause)} {negated : Bool} (traits : SourceTraits)

theorem IsReadWithin.of_recovered {r : Rule} (hhead : head.IsReadWithin bound matching)
    (htail : ∀ e ∈ tail, e.2.IsReadWithin bound matching)
    (h : recovered? traits negated head tail = some r) : r.IsReadWithin bound matching := by
  obtain ⟨low, high, j, lowOp, highOp, op, rfl, rfl, hlowOp, hone, hhighOp, hone', -, hsource,
    hop, rfl⟩ := exists_of_recovered? h
  have hlow : low.IsReadWithin bound matching := by
    cases hhead with
    | rule hlow => exact hlow
  have hhigh : high.IsReadWithin bound matching := by
    have hrule := htail _ List.mem_cons_self
    cases hrule with
    | rule hhigh => exact hhigh
  have hsame : low.comparesFields = high.comparesFields := isField_eq_of_equals hsource
  refine ⟨hlow.shape.range hhigh.shape hlowOp hone hhighOp hone' hsource hop,
    fun hliteral digits hdigits => Value.fits_list ?_⟩
  have hliteral : low.comparesFields = false := hliteral
  exact List.forall_mem_cons.mpr ⟨hlow.fits hliteral digits hdigits,
    List.forall_mem_singleton.mpr (hhigh.fits (hsame ▸ hliteral) digits hdigits)⟩

/-- Members in a row are a sequence with `and` and `or` between them. -/
theorem reads_toTurns {plan : ParsePlan} {depth : Nat}
    (ih : ∀ e ∈ tail, (toMember traits plan depth e.2 limit).ReadsWithin limit bound
      fun m => m.IsMember ∧ m.IsReadWithin bound matching) :
    (toTurns traits plan depth tail limit).ReadsWithin limit bound fun turns =>
      ∃ entries : List (String × Node),
        turns = entries.flatMap (fun e => [.bare (.text e.1), e.2]) ∧
          ∀ e ∈ entries,
            (∃ j : Junction, e.1 = j.name) ∧ e.2.IsMember ∧ e.2.IsReadWithin bound matching := by
  induction tail with
  | nil => exact Result.reads_ok ⟨[], rfl, by simp⟩
  | cons e tail iht =>
    obtain ⟨he, htail⟩ := List.forall_mem_cons.mp ih
    obtain ⟨j, c⟩ := e
    refine he.bind fun m hm => (iht htail).bind fun turns hturns => ?_
    obtain ⟨entries, rfl, hentries⟩ := hturns
    exact Result.reads_ok ⟨(j.name, m) :: entries, rfl,
      List.forall_mem_cons.mpr ⟨⟨⟨j, rfl⟩, hm⟩, hentries⟩⟩

variable {plan : ParsePlan} (hplan : plan.CountsWithin bound)
include hplan

/-- The members of a group are an interleaved group. -/
theorem reads_members {depth : Nat} (flags : GroupFlags) (hflags : flags.disabled = false)
    (ihead : (toMember traits plan depth head limit).ReadsWithin limit bound
      fun m => m.IsMember ∧ m.IsReadWithin bound matching)
    (itail : ∀ e ∈ tail, (toMember traits plan depth e.2 limit).ReadsWithin limit bound
      fun m => m.IsMember ∧ m.IsReadWithin bound matching) :
    Result.ReadsWithin limit bound
      (fun m => (∃ items, m = .interleaved flags items) ∧ m.IsReadWithin bound matching) (do
      plan.checkDepth depth
      let first ← toMember traits plan depth head limit
      return Node.interleaved flags (first :: (← toTurns traits plan depth tail limit))) := by
  refine (hplan.reads_checkDepth depth).bind fun _ _ => ihead.bind fun first hfirst => ?_
  refine (reads_toTurns traits itail).bind fun turns hturns => ?_
  obtain ⟨entries, rfl, hentries⟩ := hturns
  exact Result.reads_ok ⟨⟨_, rfl⟩, .sequence hflags hfirst hentries⟩

/-- A clause becomes a member, however deep it is. -/
theorem IsReadWithin.reads_toMember (h : c.IsReadWithin bound matching) (depth : Nat) :
    (toMember traits plan depth c limit).ReadsWithin limit bound
      fun m => m.IsMember ∧ m.IsReadWithin bound matching := by
  induction h generalizing depth with
  | rule hr => exact hr.reads_finish plan
  | constant => exact Result.reads_worded rfl
  | empty negated =>
    refine (hplan.reads_checkDepth _).bind fun _ _ => ?_
    exact Result.reads_ok ⟨.interleaved _ _, .empty rfl⟩
  | @group negated head tail hhead htail ihead itail =>
    rw [toMember]
    split
    · rename_i r hr
      exact (hhead.of_recovered traits htail hr).reads_finish plan
    · refine (reads_members traits hplan { negated := negated } rfl (ihead _)
        fun e he => itail e he _).mono ?_
      rintro _ ⟨⟨items, rfl⟩, hmember⟩
      exact ⟨.interleaved _ _, hmember⟩

/-- A clause becomes a root. -/
theorem IsReadWithin.reads_toGroup (h : c.IsReadWithin bound matching) :
    (toGroup traits plan c limit).ReadsWithin limit bound fun group =>
      (∃ flags items, group = .interleaved flags items) ∧ group.IsReadWithin bound matching := by
  cases h with
  | @group negated head tail hhead htail =>
    refine (reads_members traits hplan { negated := negated } rfl
      (hhead.reads_toMember traits hplan 1)
      fun e he => (htail e he).reads_toMember traits hplan 1).mono ?_
    rintro _ ⟨⟨items, rfl⟩, hgroup⟩
    exact ⟨⟨_, _, rfl⟩, hgroup⟩
  | empty negated =>
    refine (hplan.reads_checkDepth 1).bind fun _ _ => ?_
    exact Result.reads_ok ⟨⟨_, _, rfl⟩, .empty rfl⟩
  | constant =>
    refine (hplan.reads_checkDepth 1).bind fun _ _ => ?_
    exact Result.reads_worded rfl
  | rule hr =>
    refine (hplan.reads_checkDepth 1).bind fun _ _ => ?_
    refine ((IsReadWithin.rule hr).reads_toMember traits hplan 1).bind fun m hm => ?_
    have hgroup : (Node.interleaved {} (Node.alternate m [])).IsReadWithin bound matching :=
      .sequence rfl hm (by simp)
    exact Result.reads_ok ⟨⟨_, _, rfl⟩, hgroup⟩

/-- **Trees of clauses.**  A clause becomes such a tree, in either shape, unless there is
something wrong with its source. -/
theorem ends_toTree {root : Option Clause} (h : ∀ c ∈ root, c.IsReadWithin bound matching) :
    (toTree traits plan root limit).Ends (plan.Refuses limit bound) (Node.IsRead matching) := by
  -- what is left once the tree is there: its fields, and its line in the log
  have hchecked (tree : Node) (htree : tree.IsReadWithin bound matching) :
      Result.Ends (plan.Refuses limit bound) (Node.IsRead matching) (do
        if !plan.fields.isEmpty then checkFields plan.fields tree
        limit.check (tree.lineValues.map .write)
        return tree) := by
    have hwritten : Result.Ends (plan.Refuses limit bound) (Node.IsRead matching) (do
        limit.check (tree.lineValues.map .write)
        return tree) := by
      have hcheck : (limit.check (tree.lineValues.map .write)).ReadsWithin limit bound
          fun _ => True := Result.reads_check fun digits hdigits => List.forall_mem_map.mpr
            (htree.isShort_of_mem_lineValues hdigits)
      exact (hcheck.ends plan).bind fun _ _ => htree.shape
    split
    · rename_i hfields
      refine Result.Ends.bind (P := fun _ => True) ?_ fun _ _ => hwritten
      refine (htree.shape.failsOnly_checkFields plan.fields).mono (fun e he => ?_)
        fun _ _ => trivial
      obtain ⟨name, path, rfl⟩ := he
      exact ⟨fun hnone => by simp [hnone] at hfields, fun _ _ => rfl⟩
    · exact hwritten
  -- the tree in the shape that is asked for, before its fields are looked up
  have hbuild (c : Clause) (hc : c.IsReadWithin bound matching) :
      Result.Ends (plan.Refuses limit bound) (Node.IsRead matching) (do
        let group ← toGroup traits plan (Clause.unwrapRoot traits c) limit
        let tree ← if plan.interleaved then pure group else group.toStandard
        if !plan.fields.isEmpty then checkFields plan.fields tree
        limit.check (tree.lineValues.map .write)
        return tree) := by
    have hroot := hc.unwrapRoot traits
    refine ((hroot.reads_toGroup traits hplan).ends plan).bind fun group hgroup => ?_
    obtain ⟨⟨flags, items, rfl⟩, hread⟩ := hgroup
    dsimp only
    split
    · exact hchecked _ hread
    · obtain ⟨standard, hstandard⟩ :=
        hread.shape.isTree.exists_standardMember hread.shape.not_hasMixture
      have htree : (Node.interleaved flags items).toStandard = .ok standard := hstandard
      rw [htree]
      refine hchecked standard ⟨hread.shape.of_standardMember hstandard, ?_⟩
      rw [Node.rules_of_standardMember hstandard]
      exact hread.short
  cases root with
  | none => exact hbuild _ (.empty false)
  | some c =>
    refine hbuild (if c.isConstant then .empty false else c) ?_
    split
    · exact .empty false
    · exact h c rfl

end
end Clause
end RuleTree
