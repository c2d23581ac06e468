import RuleTree.Proofs.Judgements
import RuleTree.Proofs.Pruning
import RuleTree.Proofs.Refusals

/-! # Formatting validated queries

With validation a query is written as its pruned tree would be without
(`Query.format_validated`).  A validator of the library judges every rule that a writer
comes to (`Validator.ends_validateNode`), and by the path under which the writer looks
the rule up.  What it lets pass has an operator and a configured field, so that a call
fails for the name of no field, and for that of an operator only where the dialect
lacks it; what is refused beyond that is the combinator of a group.
-/
namespace RuleTree

/-! ### Paths of live rules -/

namespace Node
variable {path : Path} {e : Path × Rule}

/-- A live rule of a member has a path by way of it. -/
theorem exists_prefix_of_mem_liveMembers {nodes : List Node} {position : Nat}
    (ih : ∀ node ∈ nodes, ∀ path, e ∈ node.liveFrom path → path <+: e.1)
    (he : e ∈ liveMembers path position nodes) : ∃ j, position ≤ j ∧ path ++ [j] <+: e.1 := by
  induction nodes generalizing position with
  | nil => cases he
  | cons node nodes ihn =>
    obtain ⟨ihnode, ihrest⟩ := List.forall_mem_cons.mp ih
    rw [liveMembers] at he
    rcases List.mem_append.mp he with he | he
    · exact ⟨position, Nat.le_refl _, ihnode _ he⟩
    · obtain ⟨j, hj, hprefix⟩ := ihn ihrest he
      exact ⟨j, by omega, hprefix⟩

/-- A live rule has a path that goes on from that of the node it is found from. -/
theorem prefix_of_mem_liveFrom {t : Node} (ht : t.IsStandard) (he : e ∈ t.liveFrom path) :
    path <+: e.1 := by
  induction ht generalizing path with
  | rule r =>
    rw [liveFrom] at he
    split at he
    · cases he
    · obtain rfl := List.mem_singleton.mp he
      exact List.prefix_rfl
  | group hchildren ih =>
    rw [liveFrom] at he
    split at he
    · cases he
    · obtain ⟨j, -, hprefix⟩ :=
        exists_prefix_of_mem_liveMembers (fun child hchild _ he => ih child hchild he) he
      exact (List.prefix_append path [j]).trans hprefix

end Node

/-! ### Judgements of a validator -/

namespace Validator
variable {v : Validator}

/-- A rule that is valid has an operator, and a field that rules may be on. -/
theorem operator?_of_valid {r : Rule} {validity : Validity} (h : v.validateRule r = .ok validity)
    (hvalid : validity.valid = true) :
    (∃ op, r.operator? = some op) ∧ (v.fields.isEmpty = true ∨ v.fields.find? r.field ≠ .ok none) := by
  unfold validateRule at h
  obtain ⟨field, hfield, h⟩ := Result.bind_eq_ok h
  obtain ⟨reasons, hreasons, h⟩ := Result.bind_eq_ok h
  have hnone : (if (!v.fields.isEmpty && field.isNone) = true then [Reason.unknownField] else []) ++
      reasons = [] := by
    refine by_contra fun hne => ?_
    rw [if_pos (by simpa using hne)] at h
    obtain rfl := Except.ok.inj h
    cases hvalid
  obtain ⟨hknown, rfl⟩ := List.append_eq_nil_iff.mp hnone
  refine ⟨?_, ?_⟩
  · cases hop : r.operator? with
    | some op => exact ⟨op, rfl⟩
    | none =>
      rw [operatorReasons, hop] at hreasons
      cases hreasons
  · cases hempty : v.fields.isEmpty with
    | true => exact .inl rfl
    | false =>
      refine .inr fun hnone => ?_
      rw [hfield] at hnone
      obtain rfl := Except.ok.inj hnone
      rw [hempty] at hknown
      cases hknown

/-- What checks do not refuse is not refused where a rule is judged. -/
theorem refusesOnly_validateRule {Q : Value → Prop} (hchecks : ∀ entry ∈ v.fields, ∀ check,
    entry.2.check = some check → ∀ r, (check r).RefusesOnly Q) (r : Rule) :
    (v.validateRule r).RefusesOnly Q := by
  have hverdict (verdict : Verdict) : (Validity.ofVerdict verdict).RefusesOnly Q := by
    unfold Validity.ofVerdict
    split
    · trivial
    · exact (Value.refusesOnly_elements _).bind fun _ _ => trivial
    · trivial
  have hreasons (field : Option Field) : (operatorReasons r field).RefusesOnly Q := by
    unfold operatorReasons
    split
    · trivial
    · cases field with
      | none => trivial
      | some f => exact (f.refusesOnly_allows _).bind fun _ _ => trivial
  have hfind : (v.fields.find? r.field).Ends (Error.RefusesOnly Q) fun field =>
      ∀ f, field = some f → ∃ entry ∈ v.fields, entry.2 = f := by
    refine r.field.refusesOnly_requireKey.bind fun _ _ f hf => ?_
    obtain ⟨entry, hentry, rfl⟩ := Option.map_eq_some_iff.mp hf
    exact ⟨entry, List.mem_of_find?_eq_some hentry, rfl⟩
  unfold validateRule
  refine hfind.bind fun field hfield => ?_
  refine (hreasons field).bind fun reasons _ => ?_
  dsimp only
  generalize (if (!v.fields.isEmpty && field.isNone) = true then _ else _) ++ reasons = against
  split
  · trivial
  · split
    · rename_i check hcheck
      obtain ⟨f, rfl, hf⟩ := Option.bind_eq_some_iff.mp hcheck
      obtain ⟨entry, hentry, rfl⟩ := hfield f rfl
      exact (hchecks entry hentry check hf r).bind fun verdict _ => hverdict verdict
    · trivial

/-- Entries that say of rules what the validator does, each under its path. -/
def Judges (v : Validator) (entries : List (Path × Validity)) (rules : List (Path × Rule)) : Prop :=
  ∀ e ∈ rules, ∃ validity, v.validateRule e.2 = .ok validity ∧
    entries.find? (fun entry => entry.1 == e.1) = some (e.1, validity)

/-- Later entries are not looked at where there is one already. -/
theorem Judges.append {entries : List (Path × Validity)} {rules : List (Path × Rule)}
    (h : v.Judges entries rules) (more : List (Path × Validity)) : v.Judges (entries ++ more) rules := by
  intro e he
  obtain ⟨validity, hvalidity, hfind⟩ := h e he
  exact ⟨validity, hvalidity, by rw [List.find?_append, hfind, Option.some_or]⟩

/-- Entries under other paths may stand before. -/
theorem Judges.after {entries : List (Path × Validity)} {rules : List (Path × Rule)}
    (h : v.Judges entries rules) {before : List (Path × Validity)}
    (hbefore : ∀ e ∈ rules, ∀ entry ∈ before, entry.1 ≠ e.1) : v.Judges (before ++ entries) rules := by
  intro e he
  obtain ⟨validity, hvalidity, hfind⟩ := h e he
  have hnone : before.find? (fun entry => entry.1 == e.1) = none :=
    List.find?_eq_none.mpr fun entry hentry => by simpa using hbefore e he entry hentry
  exact ⟨validity, hvalidity, by rw [List.find?_append, hnone, Option.none_or, hfind]⟩

/-- Members that are judged by themselves are so in a row. -/
theorem ends_validateMembers {Q : Value → Prop} {path : Path} {nodes : List Node} (hnodes : ∀ node ∈ nodes, node.IsStandard)
    (ih : ∀ node ∈ nodes, ∀ path, Result.Ends (Error.RefusesOnly Q)
      (fun judged => (∀ e ∈ judged.2, path <+: e.1) ∧ v.Judges judged.2 (node.liveFrom path))
      (v.validateNode path node)) (position : Nat) (members : Members) :
    Result.Ends (Error.RefusesOnly Q)
      (fun result => ∃ entries, result.entries = members.entries ++ entries ∧
        (∀ e ∈ entries, ∃ j, position ≤ j ∧ path ++ [j] <+: e.1) ∧
        v.Judges entries (Node.liveMembers path position nodes))
      (v.validateMembers path position members nodes) := by
  induction nodes generalizing position members with
  | nil =>
    rw [validateMembers, Node.liveMembers]
    exact ⟨[], by simp, by simp, fun e he => by cases he⟩
  | cons node nodes ihn =>
    obtain ⟨hnode, hrest⟩ := List.forall_mem_cons.mp hnodes
    obtain ⟨ihnode, ihrest⟩ := List.forall_mem_cons.mp ih
    rw [validateMembers_cons, hnode.isCombinator_eq, if_neg Bool.false_ne_true, Node.liveMembers]
    refine (ihnode (path ++ [position])).bind fun judged hjudged => ?_
    refine (ihn hrest ihrest _ _).mono (fun _ he => he) fun result hresult => ?_
    obtain ⟨entries, hentries, hwithin, hjudges⟩ := hresult
    refine ⟨judged.2 ++ entries, ?_, ?_, ?_⟩
    · rw [hentries, ← List.append_assoc]
      split <;> rfl
    · intro e he
      rcases List.mem_append.mp he with he | he
      · exact ⟨position, Nat.le_refl _, hjudged.1 e he⟩
      · obtain ⟨j, hj, hprefix⟩ := hwithin e he
        exact ⟨j, by omega, hprefix⟩
    · intro e he
      rcases List.mem_append.mp he with he | he
      · exact hjudged.2.append entries e he
      · refine hjudges.after (fun e he entry hentry heq => ?_) e he
        obtain ⟨j, hj, hprefix⟩ := Node.exists_prefix_of_mem_liveMembers
          (fun node hmem _ => Node.prefix_of_mem_liveFrom (hrest node hmem)) he
        have := Node.eq_of_append_prefix (heq ▸ hjudged.1 entry hentry) hprefix
        omega

/-- **Judgements.**  A validator judges every live rule, under its path. -/
theorem ends_validateNode {Q : Value → Prop} (hchecks : ∀ entry ∈ v.fields, ∀ check,
    entry.2.check = some check → ∀ r, (check r).RefusesOnly Q) {t : Node} (ht : t.IsStandard)
    (path : Path) :
    Result.Ends (Error.RefusesOnly Q)
      (fun judged => (∀ e ∈ judged.2, path <+: e.1) ∧ v.Judges judged.2 (t.liveFrom path))
      (v.validateNode path t) := by
  induction ht generalizing path with
  | rule r =>
    rw [validateNode, Node.liveFrom]
    cases r.disabled with
    | true => exact ⟨by simp, fun e he => by cases he⟩
    | false =>
      cases hvalidity : v.validateRule r with
      | error e =>
        have hrule := refusesOnly_validateRule hchecks r
        rw [hvalidity] at hrule
        exact hrule
      | ok validity =>
        refine ⟨by simp, fun e he => ?_⟩
        obtain rfl := List.mem_singleton.mp he
        exact ⟨validity, hvalidity, by simp⟩
  | @group combinator flags children hchildren ih =>
    rw [validateNode, Node.liveFrom]
    cases flags.disabled with
    | true => exact ⟨by simp, fun e he => by cases he⟩
    | false =>
      refine (ends_validateMembers hchildren ih 0 {}).bind fun members hmembers => ?_
      obtain ⟨entries, hentries, hwithin, hjudges⟩ := hmembers
      obtain rfl : members.entries = entries := by simpa using hentries
      refine ⟨fun e he => ?_, hjudges.append _⟩
      rcases List.mem_append.mp he with he | he
      · obtain ⟨j, -, hprefix⟩ := hwithin e he
        exact (List.prefix_append path [j]).trans hprefix
      · obtain rfl := List.mem_singleton.mp he
        exact List.prefix_rfl

end Validator

/-! ### Runs under the validator of the library -/

section
variable {plan : FormatPlan}

/-- A plan whose validator is that of the library, and in which no function of the
caller's refuses what the library does not. -/
structure FormatPlan.IsJudging (plan : FormatPlan) : Prop extends plan.IsPlain where
  ruleHook : plan.ruleHook = .absent
  validate : plan.validate = true
  validator : ∀ v, plan.validator ≠ .given v
  checks : ∀ entry ∈ plan.style.fields, ∀ check, entry.2.check = some check → ∀ r,
    (check r).RefusesOnly Operator.IsName

/-- The name of an operator, or a combinator of a tree. -/
def Node.MayRefuse (t : Node) (v : Value) : Prop :=
  Operator.IsName v ∨ ∃ root, t.standardRoot = .ok root ∧ v ∈ root.combinators

/-- A run in which everything is judged refuses names of operators and combinators alone. -/
theorem Writer.Obliging.ends_run {α : Type} {w : Writer α} {Own : α → Prop} (h : w.Obliging Own)
    (hplan : plan.IsJudging) {t : Node} (ht : t.IsTree) :
    Result.Ends (Error.RefusesOnly t.MayRefuse) (fun output => ∀ out ∈ output.1, Own out)
      (w.run plan t) := by
  rw [w.run_of_validate t hplan.validate]
  cases hroot : t.standardRoot with
  | error e =>
    have hrefuse := t.refusesOnly_standardRoot (Q := t.MayRefuse)
    rw [hroot] at hrefuse
    exact hrefuse
  | ok root =>
    have hstandard := ht.isStandard_of_standardRoot hroot
    have hvalidator : plan.validatorOrDefault.Ends (Error.RefusesOnly t.MayRefuse)
        fun v => v.fields = plan.style.fields := by
      unfold FormatPlan.validatorOrDefault
      split
      · rename_i v hv
        exact absurd hv (hplan.validator v)
      · trivial
      · rfl
    rw [Result.ok_bind]
    refine hvalidator.bind fun v hv => ?_
    have hjudgement : (v.validate root).Ends (Error.RefusesOnly t.MayRefuse)
        fun entries => v.Judges entries (root.liveFrom []) := by
      have hnode := v.ends_validateNode (hv ▸ hplan.checks) hstandard []
      have hmono := hnode.mono (R := fun judged => v.Judges judged.2 (root.liveFrom []))
        (fun e he => he.mono (R := t.MayRefuse) fun v hv => Or.inl hv) fun judged hjudged => hjudged.2
      exact hmono.bind fun judged hjudged => hjudged
    refine hjudgement.bind fun entries hentries => ?_
    have hrules : ∀ e ∈ root.liveFrom [], Judgement.passes (some entries) e.1 = true →
        (∃ op, e.2.operator? = some op) ∧ plan.Knows e.2 := by
      intro e he hpasses
      obtain ⟨validity, hvalidity, hfind⟩ := hentries e he
      rw [Judgement.passes, hfind] at hpasses
      have hvalid := Validator.operator?_of_valid hvalidity hpasses
      rwa [hv] at hvalid
    refine (h.ends_writeNode hplan.toIsPlain hplan.ruleHook hstandard hrules {}).mono
      (fun e he => he.mono fun v hv => ?_) fun _ hout => hout
    exact hv.imp id fun hv => ⟨root, hroot, hv⟩

end

namespace Query
variable {o : FormatOptions} {plan : FormatPlan} {query : Node}

/-- The options of a call whose validator is that of the library, without functions of
the caller's for values, and in which names of parameters and checks of fields refuse
names of operators alone. -/
structure IsJudging (o : FormatOptions) : Prop where
  validator : ∀ v, o.validator ≠ .given v
  valueHook : o.valueHook = .absent
  names : ∀ names, o.names = .given names → ∀ field asked,
    (names field asked).RefusesOnly Operator.IsName
  checks : ∀ fields, FieldTable.ofInput o.fields = .ok fields → ∀ entry ∈ fields, ∀ check,
    entry.2.check = some check → ∀ r, (check r).RefusesOnly Operator.IsName

end Query
end RuleTree
