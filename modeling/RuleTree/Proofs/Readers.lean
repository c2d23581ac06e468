import RuleTree.Proofs.DocumentReaders

/-! # Readers

Every reader makes a clause of the rules that readers make, for which it asks the plan for the
depth only, and the tree of that clause (`Query.exists_clause_of_mem_readers`).  So the tree of a
source is one that is read (`Query.exists_isRead_of_parse`), and a source without a tree is
refused for what is in it (`Query.ends_read`).
-/
namespace RuleTree

/-! ### What readers ask of a plan -/

theorem ParsePlan.checkDepth_congr {plan plan' : ParsePlan} (h : plan.maxDepth = plan'.maxDepth) :
    plan.checkDepth = plan'.checkDepth := by
  funext depth
  rw [checkDepth, checkDepth, h]

namespace Mongo

theorem conjunction_congr {plan plan' : ParsePlan} (h : plan.maxDepth = plan'.maxDepth) :
    conjunction plan = conjunction plan' := by
  funext depth clauses
  unfold conjunction
  rw [ParsePlan.checkDepth_congr h]

theorem negateConditions_congr {plan plan' : ParsePlan} (h : plan.maxDepth = plan'.maxDepth) :
    negateConditions plan = negateConditions plan' := by
  funext depth clauses
  unfold negateConditions
  rw [ParsePlan.checkDepth_congr h]

mutual
theorem conditions_congr {plan plan' : ParsePlan} (h : plan.maxDepth = plan'.maxDepth)
    (depth : Nat) (field : String) :
    ∀ v : Value, conditions plan depth field v = conditions plan' depth field v
  | .map entries => by
    rw [conditions, conditions, operators_congr h depth field _ entries]
  | .null | .bool _ | .int _ | .float _ | .text _ | .list _ => by
    rw [conditions, conditions] <;> exact nofun

theorem operators_congr {plan plan' : ParsePlan} (h : plan.maxDepth = plan'.maxDepth)
    (depth : Nat) (field : String) (isRange : Bool) : ∀ entries : List (String × Value),
      operators plan depth field isRange entries = operators plan' depth field isRange entries
  | [] => rfl
  | (key, v) :: rest => by
    rw [operators, operators, operators_congr h depth field isRange rest,
      negand_congr h depth field v, negateConditions_congr h]

theorem negand_congr {plan plan' : ParsePlan} (h : plan.maxDepth = plan'.maxDepth)
    (depth : Nat) (field : String) :
    ∀ v : Value, negand plan depth field v = negand plan' depth field v
  | .map entries => by
    rw [negand, negand, operators_congr h depth field _ entries]
  | .null | .bool _ | .int _ | .float _ | .text _ | .list _ => by
    rw [negand, negand] <;> exact nofun
end

mutual
theorem entryClauses_congr {plan plan' : ParsePlan} (h : plan.maxDepth = plan'.maxDepth)
    (depth : Nat) : ∀ entries : List (String × Value),
    entryClauses plan depth entries = entryClauses plan' depth entries
  | [] => rfl
  | (key, v) :: rest => by
    rw [entryClauses, entryClauses, logical_congr h depth key v, negatedDocument_congr h depth v,
      conditions_congr h depth key v, entryClauses_congr h depth rest]

theorem negatedDocument_congr {plan plan' : ParsePlan} (h : plan.maxDepth = plan'.maxDepth)
    (depth : Nat) : ∀ v : Value, negatedDocument plan depth v = negatedDocument plan' depth v
  | .map entries => by
    rw [negatedDocument, negatedDocument, entryClauses_congr h depth entries,
      conjunction_congr h]
  | .null | .bool _ | .int _ | .float _ | .text _ | .list _ => by
    rw [negatedDocument, negatedDocument] <;> exact nofun

theorem logical_congr {plan plan' : ParsePlan} (h : plan.maxDepth = plan'.maxDepth)
    (depth : Nat) (key : String) :
    ∀ v : Value, logical plan depth key v = logical plan' depth key v
  | .list items => by
    rw [logical, logical, ParsePlan.checkDepth_congr h]
    dsimp only
    rw [documents_congr h _ key items]
  | .null | .bool _ | .int _ | .float _ | .text _ | .map _ => by
    rw [logical, logical] <;> exact nofun

theorem documents_congr {plan plan' : ParsePlan} (h : plan.maxDepth = plan'.maxDepth)
    (depth : Nat) (key : String) : ∀ items : List Value,
    documents plan depth key items = documents plan' depth key items
  | [] => rfl
  | v :: rest => by
    rw [documents, documents, itemDocument_congr h depth key v, documents_congr h depth key rest]

theorem itemDocument_congr {plan plan' : ParsePlan} (h : plan.maxDepth = plan'.maxDepth)
    (depth : Nat) (key : String) :
    ∀ v : Value, itemDocument plan depth key v = itemDocument plan' depth key v
  | .map entries => by
    rw [itemDocument, itemDocument, entryClauses_congr h depth entries, conjunction_congr h]
  | .null | .bool _ | .int _ | .float _ | .text _ | .list _ => by
    rw [itemDocument, itemDocument] <;> exact nofun
end

theorem clause?_congr {plan plan' : ParsePlan} (h : plan.maxDepth = plan'.maxDepth)
    (source : Value) : clause? plan source = clause? plan' source := by
  unfold clause?
  simp only [conjunction_congr h, entryClauses_congr h]

end Mongo

namespace JsonLogic

mutual
theorem clauseOf_congr {plan plan' : ParsePlan} (h : plan.maxDepth = plan'.maxDepth)
    (depth : Nat) : ∀ v : Value, clauseOf plan depth v = clauseOf plan' depth v
  | .map entries => by
    rw [clauseOf, clauseOf, operationClause_congr h depth entries]
  | .null | .bool _ | .int _ | .float _ | .text _ | .list _ => by
    rw [clauseOf, clauseOf] <;> exact nofun

theorem operationClause_congr {plan plan' : ParsePlan} (h : plan.maxDepth = plan'.maxDepth)
    (depth : Nat) : ∀ entries : List (String × Value),
    operationClause plan depth entries = operationClause plan' depth entries
  | [(name, v)] => by
    unfold operationClause
    rw [ParsePlan.checkDepth_congr h]
    cases junction? name with
    | some junction =>
      dsimp only
      split
      · rename_i items
        rw [clausesOf_congr h (depth + 1) items]
      · rw [clauseOf_congr h (depth + 1) v]
    | none =>
      dsimp only
      split
      · split
        · rename_i inner
          rw [clauseOf_congr h depth inner]
        · rfl
        · rw [clauseOf_congr h depth v]
      · rfl
  | [] | _ :: _ :: _ => rfl

theorem clausesOf_congr {plan plan' : ParsePlan} (h : plan.maxDepth = plan'.maxDepth)
    (depth : Nat) : ∀ items : List Value,
    clausesOf plan depth items = clausesOf plan' depth items
  | [] => rfl
  | v :: rest => by
    rw [clausesOf, clausesOf, clauseOf_congr h depth v, clausesOf_congr h depth rest]
end

theorem clause?_congr {plan plan' : ParsePlan} (h : plan.maxDepth = plan'.maxDepth)
    (source : Value) : clause? plan source = clause? plan' source := by
  unfold clause?
  simp only [clauseOf_congr h]

end JsonLogic

/-! ### Every dialect -/

namespace Query

/-- A reader of texts makes a clause, for which it asks the plan for nothing, and the tree of
that clause. -/
theorem exists_clause_of_text {entry : String × Reader} (h : entry ∈ readers)
    (htext : entry.1 ∈ ["sql", "cel", "spel"]) (source : Value) :
    ∃ (traits : SourceTraits) (clause : Result (Option Clause)),
      (clause.Reads fun c? => ∀ c ∈ c?, c.IsRead true) ∧
      ∀ plan : ParsePlan, entry.2 plan source = clause >>= Clause.toTree traits plan := by
  simp only [readers, List.mem_cons, List.not_mem_nil, or_false] at h
  rcases h with rfl | rfl | rfl | rfl | rfl
  · exact ⟨_, _, Sql.makesRead_meaning.readText Sql.grammar .sql source nofun, fun _ => rfl⟩
  · exact ⟨_, _, Cel.makesRead_meaning.readText Cel.grammar .cel source nofun, fun _ => rfl⟩
  · exact ⟨_, _, Spel.makesRead_meaning.readText Spel.grammar .spel source nofun, fun _ => rfl⟩
  · exact absurd htext (by decide)
  · exact absurd htext (by decide)

/-- Every reader makes a clause, for which it asks the plan for the depth only, and the tree of
that clause. -/
theorem exists_clause_of_mem_readers {entry : String × Reader} (h : entry ∈ readers)
    {plan : ParsePlan} (hplan : plan.CountsDepth) (source : Value) :
    ∃ (traits : SourceTraits) (clause : Result (Option Clause)),
      (clause.Reads fun c? => ∀ c ∈ c?, c.IsRead (entry.1 != "mongodb")) ∧
      ∀ plan' : ParsePlan, plan'.maxDepth = plan.maxDepth →
        entry.2 plan' source = clause >>= Clause.toTree traits plan' := by
  by_cases htext : entry.1 ∈ ["sql", "cel", "spel"]
  · obtain ⟨traits, clause, hclause, hentry⟩ := exists_clause_of_text h htext source
    have hname : (entry.1 != "mongodb") = true :=
      bne_iff_ne.mpr (ne_of_mem_of_not_mem htext (by decide))
    rw [hname]
    exact ⟨traits, clause, hclause, fun plan' _ => hentry plan'⟩
  simp only [readers, List.mem_cons, List.not_mem_nil, or_false] at h
  rcases h with rfl | rfl | rfl | rfl | rfl
  case inl | inr.inl | inr.inr.inl => exact absurd (by decide) htext
  · refine ⟨Mongo.traits, _, Mongo.reads_clause? hplan.within source (.inl rfl) nofun,
      fun plan' hdepth => ?_⟩
    change (Mongo.clause? plan' source >>= Clause.toTree Mongo.traits plan') = _
    rw [Mongo.clause?_congr hdepth]
  · refine ⟨JsonLogic.traits, _, JsonLogic.reads_clause? hplan.within source (.inl rfl) nofun,
      fun plan' hdepth => ?_⟩
    change (JsonLogic.clause? plan' source >>= Clause.toTree JsonLogic.traits plan') = _
    rw [JsonLogic.clause?_congr hdepth]

/-- No literal of the source has more than so many digits, in the dialect of the name. -/
structure HasFewDigits (digits : Nat) (name : String) (source : Value) : Prop where
  sql : name = "sql" → Source.SpellsFew Sql.grammar Sql.Predicate.leaves .sql digits source
  cel : name = "cel" → Source.SpellsFew Cel.grammar Cel.Predicate.leaves .cel digits source
  spel : name = "spel" → Source.SpellsFew Spel.grammar Spel.Predicate.leaves .spel digits source
  mongodb : name = "mongodb" → Json.HoldsFew "MongoDB" digits source
  jsonlogic : name = "jsonlogic" → Json.HoldsFew "JsonLogic" digits source

/-- **Readers.**  Every reader makes such trees, or there is something wrong with the
source or with a field in it. -/
theorem ends_read {limit bound : DigitLimit} {entry : String × Reader} (h : entry ∈ readers limit)
    {plan : ParsePlan} (hplan : plan.CountsWithin bound) {source : Value}
    (hbound : bound = none ∨ bound = limit)
    (hfew : ∀ digits ∈ bound, HasFewDigits digits entry.1 source) :
    (entry.2 plan source).Ends (plan.Refuses limit bound)
      (Node.IsRead (entry.1 != "mongodb")) := by
  simp only [readers, List.mem_cons, List.not_mem_nil, or_false] at h
  have htree {matching : Bool} {traits : SourceTraits} {clause : Result (Option Clause)}
      (hclause : clause.ReadsWithin limit bound fun c? =>
        ∀ c ∈ c?, c.IsReadWithin bound matching) :
      (clause >>= fun c? => Clause.toTree traits plan c? limit).Ends (plan.Refuses limit bound)
        (Node.IsRead matching) :=
    (hclause.ends plan).bind fun _ hc => Clause.ends_toTree traits hplan hc
  rcases h with rfl | rfl | rfl | rfl | rfl
  · exact htree (Sql.makesRead_meaning.within.readText Sql.grammar .sql source
      fun digits hdigits => (hfew digits hdigits).sql rfl)
  · exact htree (Cel.makesRead_meaning.within.readText Cel.grammar .cel source
      fun digits hdigits => (hfew digits hdigits).cel rfl)
  · exact htree (Spel.makesRead_meaning.within.readText Spel.grammar .spel source
      fun digits hdigits => (hfew digits hdigits).spel rfl)
  · exact htree (Mongo.reads_clause? hplan source hbound
      fun digits hdigits => (hfew digits hdigits).mongodb rfl)
  · exact htree (JsonLogic.reads_clause? hplan source hbound
      fun digits hdigits => (hfew digits hdigits).jsonlogic rfl)

theorem mem_readers {limit : DigitLimit} {dialect : Value} {entry : String × Reader}
    (h : reader dialect limit = .ok entry) : entry ∈ readers limit := by
  unfold reader at h
  generalize readers limit = all at h ⊢
  dsimp only at h
  -- a false value is read as the empty name
  split at h
  all_goals
    obtain ⟨name, -, h⟩ := Result.bind_eq_ok h
    split at h
    · rename_i found hfound
      obtain rfl := Except.ok.inj h
      exact List.mem_of_find?_eq_some hfound
    · cases h

/-- **Trees that are read.**  Whatever is read, in whatever dialect and with whatever
options, the tree is one that readers make; fields are not matched against fields in a
document. -/
theorem exists_isRead_of_parse {source : Source} {dialect : Value}
    {input : OptionsInput ParseOptions} {overrides : List (String × OptionValue)} {t : Node}
    (h : parse source dialect input overrides = .ok t) :
    ∃ entry, reader dialect = .ok entry ∧ t.IsRead (entry.1 != "mongodb") := by
  obtain ⟨⟨name, read⟩, hreader, h⟩ := Result.bind_eq_ok h
  obtain ⟨options, -, h⟩ := Result.bind_eq_ok h
  obtain ⟨plan, hplan, h⟩ := Result.bind_eq_ok h
  have hread (v : Value) (h : read plan v = .ok t) : t.IsRead (name != "mongodb") :=
    (ends_read (mem_readers hreader) (ParseOptions.countsDepth_of_resolve hplan).within (.inl rfl)
      nofun).of_eq_ok h
  refine ⟨(name, read), hreader, ?_⟩
  split at h
  · exact hread _ h
  · cases h
  · split at h
    · cases h
    · exact hread _ h

end Query
end RuleTree
