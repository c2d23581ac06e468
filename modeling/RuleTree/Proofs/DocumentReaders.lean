import RuleTree.Proofs.TextReaders

/-! # What the readers of documents make

The document languages make clauses of the rules that readers make (`Clause.IsReadWithin`) from
the entries of objects (`Mongo.reads_clause?`, `JsonLogic.reads_clause?`).

Where digits are limited, the literals of the rules fit because no value of the document has more
digits, and none that is too long is written in it (`Json.HoldsFew`).
-/
namespace RuleTree

theorem Dialect.exists_mem_operators {d : Dialect} {token : String} {operator : Operator}
    (h : d.operator? token = some operator) : ∃ entry ∈ d.operators, entry.2 = operator := by
  obtain ⟨entry, hentry, rfl⟩ := Option.map_eq_some_iff.mp h
  exact ⟨entry, List.mem_of_find?_eq_some hentry, rfl⟩

/-! ### Documents -/

namespace Json
variable {limit bound : DigitLimit}

/-- Whether a document has no value with more than so many digits, and is not written with one
either. -/
structure HoldsFew (format : String) (digits : Nat) (source : Value) : Prop where
  written : document format source (some digits) ≠ .error (.misuse .tooManyDigits)
  held : ∀ v, document format source (some digits) = .ok v → v.isBrief digits = true

/-- A text that is not in JSON is refused as such, and an integer is too long for a limit only. -/
theorem of_document_eq_error {format : String} {source : Value} {e : Error}
    (h : document format source limit = .error e) :
    (∃ fault place, e = .parse (.invalidJson format fault) place) ∨
      limit ≠ none ∧ e = .misuse .tooManyDigits := by
  unfold document at h
  split at h
  · split at h
    · cases h
    · obtain rfl := Except.error.inj h
      unfold faultError
      split
      · exact .inr ⟨nofun, rfl⟩
      · exact .inl ⟨_, _, rfl⟩
  · cases h

theorem reads_document (format : String) {source : Value} (hbound : bound = none ∨ bound = limit)
    (hfew : ∀ digits ∈ bound, HoldsFew format digits source) :
    (document format source limit).ReadsWithin limit bound (Value.IsBriefWithin bound) := by
  rcases hbound with rfl | rfl
  · refine ⟨fun _ _ _ => nofun, fun e he => ?_⟩
    rcases of_document_eq_error he with ⟨fault, place, rfl⟩ | ⟨hlimit, rfl⟩
    · exact ⟨trivial, nofun⟩
    · exact hlimit.symm
  · -- the bound is the limit, which nothing in the source reaches
    refine ⟨fun v hv digits hdigits => ?_, fun e he => ?_⟩
    · obtain rfl : bound = some digits := hdigits
      exact (hfew digits rfl).held v hv
    · rcases of_document_eq_error he with ⟨fault, place, rfl⟩ | ⟨hlimit, rfl⟩
      · exact ⟨trivial, fun _ _ => rfl⟩
      · obtain ⟨digits, rfl⟩ := Option.ne_none_iff_exists'.mp hlimit
        exact absurd he (hfew digits rfl).written

end Json

namespace Mongo
open Clause
variable {limit bound : DigitLimit}

/-- Clauses as readers make them, in a row. -/
def AllRead (bound : DigitLimit) (cs : List Clause) : Prop := ∀ c ∈ cs, c.IsReadWithin bound false

theorem allRead_nil : AllRead bound [] := fun _ hc => by cases hc

theorem AllRead.cons {c : Clause} {cs : List Clause} (hc : c.IsReadWithin bound false)
    (hcs : AllRead bound cs) : AllRead bound (c :: cs) :=
  List.forall_mem_cons.mpr ⟨hc, hcs⟩

theorem AllRead.append {cs ds : List Clause} (hcs : AllRead bound cs) (hds : AllRead bound ds) :
    AllRead bound (cs ++ ds) :=
  List.forall_mem_append.mpr ⟨hcs, hds⟩

/-- The clause that is read, if any. -/
theorem allRead_toList {c? : Option Clause} (h : ∀ c ∈ c?, c.IsReadWithin bound false) :
    AllRead bound c?.toList := by
  simpa [AllRead] using h

section
variable {plan : ParsePlan} (hplan : plan.CountsWithin bound) (depth : Nat) (field key : String)
  {v : Value} {entries : List (String × Value)} {cs : List Clause}

include hplan in
theorem reads_conjunction (h : AllRead bound cs) : (conjunction plan depth cs).ReadsWithin limit
    bound fun c? => ∀ c ∈ c?, c.IsReadWithin bound false := by
  unfold conjunction
  split
  · exact Result.reads_ok (by simp)
  · exact Result.reads_ok (by simpa using h _ List.mem_cons_self)
  · refine (hplan.reads_checkDepth depth).bind fun _ _ => ?_
    exact Result.reads_ok (by simpa using isReadWithin_join .and false h)

include hplan in
theorem reads_negateConditions (h : AllRead bound cs) :
    (negateConditions plan depth cs).ReadsWithin limit bound (Clause.IsReadWithin bound false) := by
  unfold negateConditions
  split
  · exact (h _ List.mem_cons_self).reads_negate
  · exact (hplan.reads_checkDepth depth).bind fun _ _ =>
      Result.reads_ok (isReadWithin_join .and true h)

theorem reads_nor_isRead (h : AllRead bound cs) :
    (nor cs).ReadsWithin limit bound (Clause.IsReadWithin bound false) := by
  unfold nor
  split
  · exact Result.reads_ok (isReadWithin_join .or true h)
  · exact (h _ List.mem_cons_self).reads_negate
  · exact Result.reads_ok (isReadWithin_join .or true h)

theorem reads_operatorRule (h : v.IsBriefWithin bound) :
    (operatorRule field key v).ReadsWithin limit bound (Rule.IsReadWithin bound false) := by
  have hnull : Value.null.FitsWithin bound := fun _ _ => Value.fits_of_isBrief rfl
  unfold operatorRule
  split
  · exact Result.reads_ok (.value field _ hnull)
  · exact Result.reads_ok (.value field _ h.fitsWithin)
  · exact Result.reads_ok (.value field _ h.fitsWithin)
  · exact Result.reads_worded rfl
  · exact Result.reads_worded rfl
  · exact Pattern.reads_rule "mongodb" _ h
  · exact Result.reads_ok (.value field _ hnull)
  · split
    · exact Result.reads_ok (.value field _ h.fitsWithin)
    · exact Result.reads_unrepresentable _ _

theorem isReadWithin_equality (h : v.IsBriefWithin bound) :
    (equality field v).IsReadWithin bound false := by
  unfold equality
  split <;> exact .value field _ h.fitsWithin

/-- The range of two bounds has no other values than they are. -/
theorem isReadWithin_of_range? {r : Rule} (h : ∀ e ∈ entries, e.2.IsBriefWithin bound)
    (hr : range? field entries = some r) : r.IsReadWithin bound false := by
  have hlookup {name : String} {v : Value} (hv : Value.lookup name entries = some v) :
      v.FitsWithin bound := (h _ (Value.mem_of_lookup hv)).fitsWithin
  unfold range? at hr
  split at hr
  · rename_i low high hlow hhigh
    obtain rfl := Option.some.inj hr
    refine .value field _ fun digits hdigits => Value.fits_list ?_
    exact List.forall_mem_cons.mpr ⟨hlookup hlow digits hdigits,
      List.forall_mem_singleton.mpr (hlookup hhigh digits hdigits)⟩
  · cases hr

theorem reads_objectConditions (h : (Value.map entries).IsBriefWithin bound)
    {operators : Result (List Clause)} (hoperators : operators.ReadsWithin limit bound
      (AllRead bound)) :
    (objectConditions field entries operators).ReadsWithin limit bound (AllRead bound) := by
  unfold objectConditions
  split
  · refine hoperators.bind fun cs hcs => Result.reads_ok (.append (allRead_toList ?_) hcs)
    intro c hc
    obtain ⟨r, hr, rfl⟩ := Option.map_eq_some_iff.mp hc
    exact .rule (isReadWithin_of_range? field h.entries hr)
  · exact Result.reads_ok (.cons (.rule (isReadWithin_equality field h)) allRead_nil)

end

mutual
theorem reads_conditions_isRead {plan : ParsePlan} (hplan : plan.CountsWithin bound) (depth : Nat)
    (field : String) : ∀ v : Value, v.IsBriefWithin bound →
      (conditions plan depth field v).ReadsWithin limit bound (AllRead bound)
  | .map entries, h => by
    rw [conditions]
    exact reads_objectConditions field h (reads_operators hplan depth field _ entries h.entries)
  | .null, h | .bool _, h | .int _, h | .float _, h | .text _, h | .list _, h => by
    rw [conditions]
    · exact Result.reads_ok (.cons (.rule (isReadWithin_equality field h)) allRead_nil)
    · intro _ hmap
      cases hmap

theorem reads_operators {plan : ParsePlan} (hplan : plan.CountsWithin bound) (depth : Nat)
    (field : String) (isRange : Bool) :
    ∀ entries : List (String × Value), (∀ e ∈ entries, e.2.IsBriefWithin bound) →
      (operators plan depth field isRange entries).ReadsWithin limit bound (AllRead bound)
  | [], _ => Result.reads_ok allRead_nil
  | (key, v) :: rest, h => by
    obtain ⟨hv, hbrief⟩ := List.forall_mem_cons.mp h
    have hrest := reads_operators hplan depth field isRange rest hbrief
    rw [operators]
    -- an entry that has been read with another, a negation, any other operator
    split
    · exact hrest
    split
    · refine (reads_negand hplan depth field v hv).bind fun inner hinner => ?_
      refine (reads_negateConditions hplan depth hinner).bind fun c hc => ?_
      exact hrest.bind fun cs hcs => Result.reads_ok (.cons hc hcs)
    · refine (reads_operatorRule field key hv).bind fun r hr => ?_
      exact hrest.bind fun cs hcs => Result.reads_ok (.cons (.rule hr) hcs)

theorem reads_negand {plan : ParsePlan} (hplan : plan.CountsWithin bound) (depth : Nat)
    (field : String) : ∀ v : Value, v.IsBriefWithin bound →
      (negand plan depth field v).ReadsWithin limit bound (AllRead bound)
  | .map entries, h => by
    rw [negand]
    exact reads_objectConditions field h (reads_operators hplan depth field _ entries h.entries)
  | .null, _ | .bool _, _ | .int _, _ | .float _, _ | .text _, _ | .list _, _ => by
    rw [negand]
    · exact Result.reads_worded rfl
    · intro _ hmap
      cases hmap
end

/-! ### Expressions -/

/-- The key of a comparison is not that of a text match. -/
theorem isTextMatch_of_comparison? {key : String} {operator : Operator}
    (h : comparison? key = some operator) : operator.isTextMatch = false := by
  have hnone : ∀ entry ∈ Dialect.mongodb.operators, entry.2.isTextMatch = false := by decide
  unfold comparison? at h
  generalize hfound : Dialect.mongodb.operator? key = found at h
  split at h
  case h_3 =>
    obtain ⟨entry, hentry, rfl⟩ := Dialect.exists_mem_operators hfound
    split at h
    · exact Option.some.inj h ▸ hnone entry hentry
    · cases h
  all_goals cases h

theorem fitsWithin_operand {v : Value} (h : v.IsBriefWithin bound) :
    (operand v).FitsWithin bound := by
  unfold operand
  split
  · split
    · trivial
    · exact h.fitsWithin
  · exact h.fitsWithin

theorem reads_expressionRule (key : String) {left right : Value} (hleft : left.IsBriefWithin bound)
    (hright : right.IsBriefWithin bound) :
    (expressionRule key left right).ReadsWithin limit bound (Rule.IsReadWithin bound false) := by
  unfold expressionRule
  split
  · rename_i operator hoperator
    have hother := isTextMatch_of_comparison? hoperator
    exact Clause.reads_comparison _ (fun htext => by rw [hother] at htext; cases htext)
      (fitsWithin_operand hleft) (fitsWithin_operand hright)
  · split
    · exact reads_listRule _ (.inl rfl) (List.forall_mem_map.mpr fun v hv =>
        fitsWithin_operand (hright.items v hv))
    · exact Result.reads_unrepresentable _ _

/-- The complement of a clause, if there is one. -/
theorem reads_mapM_negate {c? : Option Clause} (h : ∀ c ∈ c?, c.IsReadWithin bound false) :
    (c?.mapM negate).ReadsWithin limit bound fun c? => ∀ c ∈ c?, c.IsReadWithin bound false := by
  cases c? with
  | none => exact Result.reads_ok (by simp)
  | some c => exact (h c rfl).reads_negate.map fun d hd => by simpa using hd

mutual
theorem reads_expression_isRead : ∀ v : Value, v.IsBriefWithin bound →
    (expression v).ReadsWithin limit bound fun c? => ∀ c ∈ c?, c.IsReadWithin bound false
  | .bool true, _ => Result.reads_ok (by simp)
  | .map entries, h => reads_operation entries h.entries
  | .bool false, _ | .null, _ | .int _, _ | .float _, _ | .text _, _ | .list _, _ =>
    Result.reads_unrepresentable _ _

theorem reads_operation : ∀ entries : List (String × Value),
    (∀ e ∈ entries, e.2.IsBriefWithin bound) →
      (operation entries).ReadsWithin limit bound fun c? => ∀ c ∈ c?, c.IsReadWithin bound false
  | [(key, v)], h => by
    have hv := h _ List.mem_cons_self
    unfold operation
    -- a junction, a negation, a comparison of two operands
    split
    · split
      · rename_i items
        exact (reads_expressions items hv.items).bind fun cs hcs =>
          Result.reads_ok (by simpa using isReadWithin_join _ false hcs)
      · exact Result.reads_worded rfl
    split
    · split
      · rename_i inner
        exact (reads_expression_isRead inner (hv.items _ List.mem_cons_self)).bind fun c? hc =>
          reads_mapM_negate hc
      · exact (reads_expression_isRead v hv).bind fun c? hc => reads_mapM_negate hc
    · split
      · rename_i left right
        refine (reads_expressionRule key (hv.items left (by simp))
          (hv.items right (by simp))).bind fun r hr => ?_
        exact Result.reads_ok (by simpa using .rule hr)
      · exact Result.reads_worded rfl
  | [], _ | _ :: _ :: _, _ => Result.reads_unrepresentable _ _

theorem reads_expressions : ∀ items : List Value, (∀ v ∈ items, v.IsBriefWithin bound) →
    (expressions items).ReadsWithin limit bound (AllRead bound)
  | [], _ => Result.reads_ok allRead_nil
  | v :: rest, h =>
    (reads_expression_isRead v (h v List.mem_cons_self)).bind fun c? hc =>
      (reads_expressions rest fun w hw => h w (List.mem_cons_of_mem v hw)).bind fun cs hcs =>
        Result.reads_ok ((allRead_toList hc).append hcs)
end

/-! ### Entries -/

mutual
theorem reads_entryClauses {plan : ParsePlan} (hplan : plan.CountsWithin bound) (depth : Nat) :
    ∀ entries : List (String × Value), (∀ e ∈ entries, e.2.IsBriefWithin bound) →
      (entryClauses plan depth entries).ReadsWithin limit bound (AllRead bound)
  | [], _ => Result.reads_ok allRead_nil
  | (key, v) :: rest, h => by
    obtain ⟨hv, hbrief⟩ := List.forall_mem_cons.mp h
    have hrest := reads_entryClauses hplan depth rest hbrief
    -- what an entry says comes before what the others say
    have happend {here : List Clause} (hhere : AllRead bound here) :
        Result.ReadsWithin limit bound (AllRead bound) (do
          return here ++ (← entryClauses plan depth rest)) :=
      hrest.bind fun cs hcs => Result.reads_ok (hhere.append hcs)
    rw [entryClauses]
    -- a junction, a negated document, an expression, an operator that is none of them, a field
    split
    · refine ((reads_logical hplan depth key v hv).map fun c hc => ?_).bind
        fun here hhere => happend hhere
      exact .cons hc allRead_nil
    split
    · refine (reads_negatedDocument hplan depth v hv).bind fun inner hinner => ?_
      refine (reads_mapM_negate hinner).bind fun c? hc => ?_
      exact happend (allRead_toList hc)
    split
    · refine ((reads_expression_isRead v hv).map fun c? hc => ?_).bind
        fun here hhere => happend hhere
      exact allRead_toList hc
    split
    · exact Result.reads_unrepresentable _ _
    · exact (reads_conditions_isRead hplan depth key v hv).bind fun here hhere => happend hhere

theorem reads_negatedDocument {plan : ParsePlan} (hplan : plan.CountsWithin bound) (depth : Nat) :
    ∀ v : Value, v.IsBriefWithin bound → (negatedDocument plan depth v).ReadsWithin limit bound
      fun c? => ∀ c ∈ c?, c.IsReadWithin bound false
  | .map entries, h =>
    (reads_entryClauses hplan depth entries h.entries).bind fun _ hcs =>
      reads_conjunction hplan depth hcs
  | .null, _ | .bool _, _ | .int _, _ | .float _, _ | .text _, _ | .list _, _ =>
    Result.reads_worded rfl

theorem reads_logical {plan : ParsePlan} (hplan : plan.CountsWithin bound) (depth : Nat)
    (key : String) : ∀ v : Value, v.IsBriefWithin bound →
      (logical plan depth key v).ReadsWithin limit bound (Clause.IsReadWithin bound false)
  | .list items, h => by
    rw [logical]
    refine (hplan.reads_checkDepth depth).bind fun _ _ => ?_
    refine (reads_documents hplan _ key items h.items).bind fun cs hcs => ?_
    split
    · exact reads_nor_isRead hcs
    · exact Result.reads_ok (isReadWithin_join _ false hcs)
  | .null, _ | .bool _, _ | .int _, _ | .float _, _ | .text _, _ | .map _, _ =>
    Result.reads_worded rfl

theorem reads_documents {plan : ParsePlan} (hplan : plan.CountsWithin bound) (depth : Nat)
    (key : String) : ∀ items : List Value, (∀ v ∈ items, v.IsBriefWithin bound) →
      (documents plan depth key items).ReadsWithin limit bound (AllRead bound)
  | [], _ => Result.reads_ok allRead_nil
  | v :: rest, h =>
    (reads_itemDocument hplan depth key v (h v List.mem_cons_self)).bind fun _ hc =>
      (reads_documents hplan depth key rest fun w hw => h w (List.mem_cons_of_mem v hw)).bind
        fun _ hcs => Result.reads_ok ((allRead_toList hc).append hcs)

theorem reads_itemDocument {plan : ParsePlan} (hplan : plan.CountsWithin bound) (depth : Nat)
    (key : String) : ∀ v : Value, v.IsBriefWithin bound →
      (itemDocument plan depth key v).ReadsWithin limit bound
        fun c? => ∀ c ∈ c?, c.IsReadWithin bound false
  | .map entries, h =>
    (reads_entryClauses hplan depth entries h.entries).bind fun _ hcs =>
      reads_conjunction hplan depth hcs
  | .null, _ | .bool _, _ | .int _, _ | .float _, _ | .text _, _ | .list _, _ =>
    Result.reads_worded rfl
end

theorem reads_clause? {plan : ParsePlan} (hplan : plan.CountsWithin bound) (source : Value)
    (hbound : bound = none ∨ bound = limit)
    (hfew : ∀ digits ∈ bound, Json.HoldsFew "MongoDB" digits source) :
    (clause? plan source limit).ReadsWithin limit bound
      fun c? => ∀ c ∈ c?, c.IsReadWithin bound false := by
  refine (Json.reads_document _ hbound hfew).bind fun document hdocument => ?_
  split
  · exact (reads_entryClauses hplan 1 _ hdocument.entries).bind fun cs hcs =>
      reads_conjunction hplan 1 hcs
  · exact Result.reads_worded rfl

end Mongo

/-! ### Operations -/

namespace JsonLogic
open Clause
variable {limit bound : DigitLimit}

/-- An operand with a literal that has no more digits than the bound, if there is one. -/
def IsBriefOperand (bound : DigitLimit) (o : Operand) : Prop :=
  ∀ v, o = .literal v → v.IsBriefWithin bound

theorem IsBriefOperand.fitsWithin {o : Operand} (h : IsBriefOperand bound o) :
    o.FitsWithin bound := by
  cases o with
  | field => trivial
  | literal v => exact (h v rfl).fitsWithin

/-- The name of a field is written from a value of few digits. -/
theorem reads_operandOf {v : Value} (h : v.IsBriefWithin bound) :
    (operandOf v limit).ReadsWithin limit bound (IsBriefOperand bound) := by
  have hname (v : Value) (hv : v.IsBriefWithin bound) :
      ∀ digits ∈ bound, ∀ c ∈ nameConversions v, c.fits digits = true := by
    have hwrite (w : Value) (hw : w.IsBriefWithin bound) (digits : Nat) (hdigits : digits ∈ bound) :
        (Conversion.write w).fits digits = true :=
      Value.isShort_of_isBrief w (hw digits hdigits)
    intro digits hdigits
    unfold nameConversions
    split
    · simp
    · exact List.forall_mem_singleton.mpr
        (hwrite _ (hv.items _ List.mem_cons_self) digits hdigits)
    · exact List.forall_mem_singleton.mpr (hwrite _ hv digits hdigits)
  unfold operandOf
  split
  · split
    · refine (Result.reads_check ?_).bind fun _ _ => Result.reads_ok fun _ => nofun
      exact hname _ (h.entries _ List.mem_cons_self)
    · exact Result.reads_unrepresentable _ _
  · exact Result.reads_unrepresentable _ _
  · exact Result.reads_unrepresentable _ _
  · exact Result.reads_ok fun w hw => Operand.literal.inj hw ▸ h

theorem reads_mapM_operandOf {items : List Value} (h : ∀ v ∈ items, v.IsBriefWithin bound) :
    (items.mapM fun v => operandOf v limit).ReadsWithin limit bound
      fun operands => ∀ o ∈ operands, IsBriefOperand bound o :=
  Result.reads_iff_ends.mpr (Result.ends_mapM fun v hv =>
    Result.reads_iff_ends.mp (reads_operandOf (h v hv)))

theorem isReadWithin_matchRule (field : String) (operator : Operator) {operand : Operand}
    (h : operand.FitsWithin bound) :
    (matchRule field operator operand).IsReadWithin bound true := by
  cases operand with
  | field other => exact .field field operator other fun _ => rfl
  | literal v => exact .value field operator h

section
variable (name : String) (operator : Operator) {left right : Operand} {operands : List Operand}

theorem reads_comparisonRule (hleft : left.FitsWithin bound) (hright : right.FitsWithin bound) :
    (comparisonRule operator left right).ReadsWithin limit bound
      (Rule.IsReadWithin bound true) := by
  unfold comparisonRule
  split
  · exact Result.reads_ok (.value _ .null hright)
  · exact Result.reads_ok (.value _ .notNull hright)
  · exact Clause.reads_comparison _ (fun _ => rfl) hleft hright

theorem reads_chainRule (h : ∀ o ∈ operands, o.FitsWithin bound) :
    (chainRule name operator operands).ReadsWithin limit bound
      (Rule.IsReadWithin bound true) := by
  unfold chainRule
  split
  · exact reads_comparisonRule _ (h _ (by simp)) (h _ (by simp))
  · split
    · refine reads_listRule _ (.inr rfl) fun o ho => h o ?_
      rcases List.mem_cons.mp ho with rfl | ho
      · simp
      · simp [List.mem_singleton.mp ho]
    · exact Result.reads_unrepresentable _ _
    · exact Result.reads_unrepresentable _ _
    · exact Result.reads_worded rfl
  · exact Result.reads_worded rfl

theorem reads_inRule (hleft : IsBriefOperand bound left) (hright : IsBriefOperand bound right) :
    (inRule left right limit).ReadsWithin limit bound (Rule.IsReadWithin bound true) := by
  unfold inRule
  split
  · rename_i f items
    refine (reads_mapM_operandOf (hright _ rfl).items).bind fun operands hoperands => ?_
    exact reads_listRule _ (.inl rfl) fun o ho => (hoperands o ho).fitsWithin
  · exact Result.reads_ok (isReadWithin_matchRule _ _ hleft.fitsWithin)
  · exact Result.reads_unrepresentable _ _

end

theorem reads_operationRule (name : String) {arguments : List Value}
    (h : ∀ v ∈ arguments, v.IsBriefWithin bound) :
    (operationRule name arguments limit).ReadsWithin limit bound
      (Rule.IsReadWithin bound true) := by
  refine (reads_mapM_operandOf h).bind fun operands hoperands => ?_
  -- a comparison, a membership, a text match, or no operation at all
  split
  · exact reads_chainRule _ _ fun o ho => (hoperands o ho).fitsWithin
  split
  · split
    · exact reads_inRule (hoperands _ (by simp)) (hoperands _ (by simp))
    · exact Result.reads_worded rfl
  split
  · split
    · refine (Operator.reads_unmapFrom _ _).bind fun operator _ => ?_
      exact Result.reads_ok (isReadWithin_matchRule _ _ (hoperands _ (by simp)).fitsWithin)
    · exact Result.reads_worded rfl
  · exact Result.reads_unrepresentable _ _

/-- A value that is no operation is written to say so. -/
theorem reads_refuseValue {v : Value} (h : v.IsBriefWithin bound) {P : Clause → Prop} :
    (refuseValue v limit).ReadsWithin limit bound P := by
  refine (Result.reads_check fun digits hdigits => List.forall_mem_singleton.mpr ?_).bind
    fun _ _ => Result.reads_worded rfl
  exact Value.isShort_of_isBrief v (h digits hdigits)

mutual
theorem reads_clauseOf {plan : ParsePlan} (hplan : plan.CountsWithin bound) (depth : Nat) :
    ∀ v : Value, v.IsBriefWithin bound →
      (clauseOf plan depth v limit).ReadsWithin limit bound (IsReadWithin bound true)
  | .map entries, h => reads_operationClause hplan depth entries h
  | .null, h | .bool _, h | .int _, h | .float _, h | .text _, h | .list _, h => by
    rw [clauseOf]
    · exact reads_refuseValue h
    · intro _ hmap
      cases hmap

theorem reads_operationClause {plan : ParsePlan} (hplan : plan.CountsWithin bound) (depth : Nat) :
    ∀ entries : List (String × Value), (Value.map entries).IsBriefWithin bound →
      (operationClause plan depth entries limit).ReadsWithin limit bound (IsReadWithin bound true)
  | [(name, v)], h => by
    have hv := h.entries _ List.mem_cons_self
    unfold operationClause
    -- a junction, which may have its one member without a list; a negation; a rule
    split
    · refine (hplan.reads_checkDepth depth).bind fun _ _ => ?_
      split
      · rename_i items
        exact (reads_clausesOf hplan (depth + 1) items hv.items).bind fun cs hcs =>
          Result.reads_ok (isReadWithin_join _ false hcs)
      · exact (reads_clauseOf hplan (depth + 1) v hv).bind fun c hc =>
          Result.reads_ok (isReadWithin_join _ false (by simpa using hc))
    split
    · split
      · rename_i inner
        exact (reads_clauseOf hplan depth inner (hv.items _ List.mem_cons_self)).bind
          fun c hc => hc.reads_negate
      · exact Result.reads_worded rfl
      · exact (reads_clauseOf hplan depth v hv).bind fun c hc => hc.reads_negate
    · refine (reads_operationRule name ?_).map fun r hr => .rule hr
      unfold argumentsOf
      split
      · exact hv.items
      · exact List.forall_mem_singleton.mpr hv
  | [], h | _ :: _ :: _, h => reads_refuseValue h

theorem reads_clausesOf {plan : ParsePlan} (hplan : plan.CountsWithin bound) (depth : Nat) :
    ∀ items : List Value, (∀ v ∈ items, v.IsBriefWithin bound) →
      (clausesOf plan depth items limit).ReadsWithin limit bound
        fun cs => ∀ c ∈ cs, c.IsReadWithin bound true
  | [], _ => Result.reads_ok (by simp)
  | v :: rest, h =>
    (reads_clauseOf hplan depth v (h v List.mem_cons_self)).bind fun _ hc =>
      (reads_clausesOf hplan depth rest fun w hw => h w (List.mem_cons_of_mem v hw)).bind
        fun _ hcs => Result.reads_ok (List.forall_mem_cons.mpr ⟨hc, hcs⟩)
end

theorem reads_clause? {plan : ParsePlan} (hplan : plan.CountsWithin bound) (source : Value)
    (hbound : bound = none ∨ bound = limit)
    (hfew : ∀ digits ∈ bound, Json.HoldsFew "JsonLogic" digits source) :
    (clause? plan source limit).ReadsWithin limit bound
      fun c? => ∀ c ∈ c?, c.IsReadWithin bound true := by
  refine (Json.reads_document _ hbound hfew).bind fun document hdocument => ?_
  split
  · exact Result.reads_ok (by simp)
  · exact (reads_clauseOf hplan 1 _ hdocument).bind fun c hc =>
      Result.reads_ok (by simpa using hc)

end JsonLogic

end RuleTree
