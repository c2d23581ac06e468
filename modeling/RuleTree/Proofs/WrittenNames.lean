import RuleTree.Proofs.ConfiguredNames
import RuleTree.Proofs.Operands
import RuleTree.Proofs.Pruning
import RuleTree.Proofs.RoundTrip.Cel
import RuleTree.Proofs.RoundTrip.JsonLogic
import RuleTree.Proofs.RoundTrip.Mongo
import RuleTree.Proofs.RoundTrip.Spel
import RuleTree.Proofs.RoundTrip.Sql

/-! # Names in what is written

What is written of a tree is read as clauses of the rules in it, or of complements of them.
A tree may be of any shape for that, unlike one that is to come back as it is (`Echo`): what
the rules are about is told from the outputs of the rules alone, and joining outputs brings
in nothing else (`Echo.Carries`).  So a tree whose rules are about configured fields is
written as something that is read as a tree of such rules (`Echo.Carries.within_of_run`).
-/
namespace RuleTree

/-! ### Outputs of a kind -/

namespace Writer
variable {α : Type}

/-- A writer whose outputs for rules are parts of some kind, which are joined to such a part
again, or to a whole at the root. -/
structure Yields (w : Writer α) (plan : FormatPlan) (P : Rule → Prop) (Known : Value → Prop)
    (Part Whole : α → Prop) : Prop where
  rule {r : Rule} {path : Path} {s s' : Bindings} {out : α} : P r →
    w.writeRule plan path r s = .ok (out, s') → w.isEmpty out = false → Part out
  group {outs : List α} {combinator : Value} {negated : Bool} {out : α} :
    (∀ out ∈ outs, Part out) → outs ≠ [] → Known combinator →
      w.combine combinator negated false outs = .ok out → Part out
  root {outs : List α} {combinator : Value} {negated : Bool} {out : α} :
    (∀ out ∈ outs, Part out) → outs ≠ [] → Known combinator →
      w.combine combinator negated true outs = .ok out → Whole out

/-- What is written of a node below the root is a part, if its live rules are of a kind. -/
def WritesPart (w : Writer α) (plan : FormatPlan) (P : Rule → Prop) (Part : α → Prop)
    (node : Node) : Prop :=
  ∀ path s s' output, path ≠ [] → (∀ e ∈ node.liveFrom path, P e.2) →
    w.writeNode plan none path node s = .ok (output, s') → ∀ out ∈ output, Part out

section
variable {w : Writer α} {plan : FormatPlan} {P : Rule → Prop} {Part : α → Prop}

/-- Members whose outputs are parts are so in a row. -/
theorem isPart_of_writeMembers {path : Path} {nodes : List Node}
    (ih : ∀ node ∈ nodes, w.WritesPart plan P Part node) {position : Nat}
    (hlive : ∀ e ∈ Node.liveMembers path position nodes, P e.2) {s s' : Bindings} {outs : List α}
    (hwrite : w.writeMembers plan none path position nodes s = .ok (outs, s')) :
    ∀ out ∈ outs, Part out := by
  induction nodes generalizing position s s' outs with
  | nil =>
    rw [writeMembers] at hwrite
    cases hwrite
    simp
  | cons node nodes ihn =>
    obtain ⟨hnode, hrest⟩ := List.forall_mem_cons.mp ih
    rw [Node.liveMembers] at hlive
    obtain ⟨hhere, hthere⟩ := List.forall_mem_append.mp hlive
    rw [writeMembers] at hwrite
    obtain ⟨output, s₁, hfirst, hwrite⟩ := bind_apply_eq_ok hwrite
    obtain ⟨rest, s₂, hothers, hwrite⟩ := bind_apply_eq_ok hwrite
    cases hwrite
    have hpart : ∀ out ∈ output, Part out := hnode _ s s₁ output (by simp) hhere hfirst
    refine List.forall_mem_append.mpr ⟨fun out hout => hpart out (by simpa using hout), ?_⟩
    exact ihn hrest hthere hothers

/-- What is written of a group is joined of what is written of its members. -/
theorem isKind_of_writeNode {combinator : Value} {flags : GroupFlags} {children : List Node}
    {path : Path} {Kind : α → Prop} (ih : ∀ child ∈ children, w.WritesPart plan P Part child)
    (hlive : ∀ e ∈ Node.liveFrom path (.group combinator flags children), P e.2)
    (hcombine : ∀ {outs out}, (∀ out ∈ outs, Part out) → outs ≠ [] →
      w.combine combinator flags.negated path.isEmpty outs = .ok out → Kind out)
    {s s' : Bindings} {output : Option α}
    (hwrite : w.writeNode plan none path (.group combinator flags children) s =
      .ok (output, s')) : ∀ out ∈ output, Kind out := by
  rw [Node.liveFrom] at hlive
  unfold writeNode at hwrite
  cases hdisabled : flags.disabled with
  | true =>
    rw [hdisabled] at hwrite
    cases hwrite
    simp
  | false =>
    simp only [hdisabled, Judgement.passes, Bool.not_true, Bool.or_false, Bool.false_eq_true,
      if_false] at hwrite hlive
    obtain ⟨outs, s₁, hmembers, hwrite⟩ := bind_apply_eq_ok hwrite
    have hparts : ∀ out ∈ outs, Part out := isPart_of_writeMembers ih hlive hmembers
    cases outs with
    | nil =>
      cases hwrite
      simp
    | cons first rest =>
      obtain ⟨out, s₂, hjoined, hwrite⟩ := bind_apply_eq_ok hwrite
      cases hwrite
      have hkind := hcombine hparts (List.cons_ne_nil _ _) (lift_apply_eq_ok hjoined).1
      split
      · simp
      · simpa using hkind

end

namespace Yields
variable {w : Writer α} {plan : FormatPlan} {P : Rule → Prop} {Known : Value → Prop}
  {Part Whole : α → Prop} (h : w.Yields plan P Known Part Whole)
include h

/-- **Members.**  What is written below the root is a part. -/
theorem writesPart {t : Node} (ht : t.IsStandard)
    (hknown : ∀ combinator ∈ t.combinators, Known combinator) : w.WritesPart plan P Part t := by
  intro path s s' output hpath hlive hwrite
  induction ht generalizing path s s' output with
  | rule r =>
    unfold writeNode at hwrite
    rw [Node.liveFrom] at hlive
    cases hdisabled : r.disabled with
    | true =>
      rw [hdisabled] at hwrite
      cases hwrite
      simp
    | false =>
      simp only [hdisabled, Judgement.passes, Bool.not_true, Bool.or_false, Bool.false_eq_true,
        if_false] at hwrite hlive
      obtain ⟨out, s₁, hrule, hwrite⟩ := bind_apply_eq_ok hwrite
      cases hwrite
      have hpart := h.rule (hlive (path, r) (List.mem_singleton_self _)) hrule
      split
      · simp
      · rename_i hempty
        simpa using hpart (by simpa using hempty)
  | @group combinator flags children hchildren ih =>
    rw [Node.combinators_group] at hknown
    obtain ⟨hhere, hbelow⟩ := List.forall_mem_cons.mp hknown
    have hmembers : ∀ child ∈ children, w.WritesPart plan P Part child :=
      fun child hchild path s s' output hpath hlive hwrite =>
        ih child hchild (List.forall_mem_flatMap.mp hbelow child hchild) path s s' output hpath
          hlive hwrite
    refine isKind_of_writeNode hmembers hlive (fun hparts hne hcombine => ?_) hwrite
    rw [List.isEmpty_eq_false_iff.mpr hpath] at hcombine
    exact h.group hparts hne hhere hcombine

/-- **Outputs of a kind.**  What is written of a tree is a whole, if anything is. -/
theorem run {t root : Node} (ht : t.IsTree) (hroot : t.standardRoot = .ok root)
    (hvalidate : plan.validate = false)
    (hknown : ∀ combinator ∈ root.combinators, Known combinator)
    (hlive : ∀ e ∈ root.liveRules, P e.2) {output : Option α} {bindings : Bindings}
    (hwrite : w.run plan t = .ok (output, bindings)) : ∀ out ∈ output, Whole out := by
  have hstandard := ht.isStandard_of_standardRoot hroot
  rw [run_of_not_validate w _ hvalidate, hroot, Result.ok_bind] at hwrite
  rw [Node.liveRules_eq hstandard] at hlive
  obtain ⟨combinator, flags, children, rfl⟩ := Node.exists_group_of_standardRoot hroot
  rw [Node.combinators_group] at hknown
  obtain ⟨hhere, hbelow⟩ := List.forall_mem_cons.mp hknown
  cases hstandard with
  | group hchildren =>
    have hmembers : ∀ child ∈ children, w.WritesPart plan P Part child := fun child hchild =>
      h.writesPart (hchildren child hchild) (List.forall_mem_flatMap.mp hbelow child hchild)
    exact isKind_of_writeNode hmembers hlive
      (fun hparts hne hcombine => h.root hparts hne hhere hcombine) hwrite

end Yields
end Writer

/-! ### Outputs that are read -/

/-- What there is for every item of a row, which is not empty, stands in a row. -/
theorem exists_row {α β : Type} {R : α → β → Prop} {Q : β → Prop} {as : List α}
    (h : ∀ a ∈ as, ∃ b, R a b ∧ Q b) (hne : as ≠ []) :
    ∃ first rest, List.Forall₂ R as (first :: rest) ∧ ∀ b ∈ first :: rest, Q b := by
  have hall : ∃ bs, List.Forall₂ R as bs ∧ ∀ b ∈ bs, Q b := by
    clear hne
    induction as with
    | nil => exact ⟨[], .nil, by simp⟩
    | cons a as ih =>
      obtain ⟨⟨b, hb, hq⟩, has⟩ := List.forall_mem_cons.mp h
      obtain ⟨bs, hbs, hqs⟩ := ih has
      exact ⟨b :: bs, .cons hb hbs, List.forall_mem_cons.mpr ⟨hq, hqs⟩⟩
  obtain ⟨bs, hbs, hqs⟩ := hall
  cases hbs with
  | nil => exact absurd rfl hne
  | cons hfirst hrest => exact ⟨_, _, .cons hfirst hrest, hqs⟩

namespace Echo
variable {α : Type} {w : Writer α} {d : Dialect} {traits : SourceTraits} {rep : Repertoire}
  (e : Echo w d traits rep)

/-- An output that is read, as a part of a group, as a clause of rules of a kind. -/
def IsPart (P : Rule → Prop) (out : α) : Prop := ∃ c, e.Reads out c ∧ c.IsOf P

/-- An output that, if it is read as a whole, is a clause of rules of a kind. -/
def IsWhole (P : Rule → Prop) (out : α) : Prop :=
  ∀ c, e.whole out = .ok (some c) → ∀ r ∈ c.rules, P r

/-- Parts are read as clauses one by one. -/
theorem exists_clauses {P : Rule → Prop} {outs : List α} (h : ∀ out ∈ outs, e.IsPart P out)
    (hne : outs ≠ []) : ∃ head cs, List.Forall₂ e.Reads outs (head :: cs) ∧
      ∀ c ∈ head :: cs, c.IsOf P := exists_row h hne

/-- A dialect that carries the rules of a tree over: it minds the operands of a rule alone,
writes nothing of a multi-value rule without operands, or names no other field in it, and
joins outputs so that their clauses are read. -/
structure Carries (e : Echo w d traits rep) (Known : Value → Prop) : Prop where
  alike {table : FieldTable} {policy : NumberPolicy} {op : Operator} {r r' : Rule} :
    r.Alike op r' → r.SparedBy policy op →
    (d = .mongodb → r.comparesFields = r'.comparesFields ∧
      (op.isNullCheck = true → r.comparesFields = false)) →
    ∀ context, w.write (.configured table policy d) r context = w.write (.usual d) r' context
  missing {source : ValueSource} {name : String} {op : Operator} {context : Option RuleContext}
      {s s' : Bindings} {out : α} : op.isMulti = true →
    w.write (.usual d) (Rule.ofSource source name op (.list [])) context s = .ok (out, s') →
    w.isEmpty out = false →
    ∃ r : Rule, e.Reads out (.rule r) ∧ r.field = .text name ∧ r.comparesFields = false
  group {P : Rule → Prop} {outs : List α} {combinator : Value} {negated : Bool} {out : α} :
    (∀ r, P r → P (Clause.invertRule r)) → (∀ out ∈ outs, e.IsPart P out) → outs ≠ [] →
    Known combinator → w.combine combinator negated false outs = .ok out → e.IsPart P out
  root {P : Rule → Prop} {outs : List α} {combinator : Value} {negated : Bool} {out : α} :
    (∀ r, P r → P (Clause.invertRule r)) → (∀ out ∈ outs, e.IsPart P out) → outs ≠ [] →
    Known combinator → w.combine combinator negated true outs = .ok out → e.IsWhole P out

end Echo

/-! ### Rules about configured fields -/

/-- A rule that a dialect writes as it is meant, and that names configured fields alone: its
field has a name of the dialect, the operands are such as the operator takes there, no text
among them is taken for a number, and names of other fields are configured and can be
stored. -/
structure Rule.IsClear (d : Dialect) (rep : Repertoire) (table : FieldTable) (op : Operator)
    (r : Rule) : Prop where
  suits : r.Suits rep op
  spared : r.SparedBy ((FormatPlan.configured table .never d).policyOf r) op
  /-- Documents have operands for a null check between fields. -/
  check : d = .mongodb → op.isNullCheck = true → r.comparesFields = false
  others : r.comparesFields = true →
    ∀ v ∈ op.operandsOf r.value, v.IsStorable ∧ table.Has v

/-- A rule with a value that its operator takes is about configured fields if its own and
the operands are. -/
theorem Rule.within_ofSource {rep : Repertoire} {table : FieldTable} {source : ValueSource}
    {name : String} {op : Operator} {v : Value} (hname : table.Has (.text name))
    (htakes : rep.Takes op source v)
    (hothers : source.isField = true → ∀ w ∈ op.operandsOf v, w.IsStorable ∧ table.Has w) :
    (ofSource source name op v).Within table := by
  refine ⟨⟨name, rfl, hname⟩, fun hfields => ?_⟩
  have hoperands := hothers hfields
  have hoperator : (ofSource source name op v).operator? = some op := Operator.ofValue?_toValue op
  cases htakes with
  | nullCheck => exact absurd hfields Bool.false_ne_true
  | comparison hop _ =>
    obtain ⟨hnull, hmember, hrange, -⟩ := Operator.of_isComparison hop
    rw [Operator.operandsOf_single hnull hmember hrange] at hoperands
    exact .inl (hoperands v (List.mem_singleton_self v))
  | textMatch hop _ =>
    obtain ⟨hnull, hmember, hrange⟩ := Operator.of_isTextMatch hop
    rw [Operator.operandsOf_single hnull hmember hrange] at hoperands
    exact .inl (hoperands v (List.mem_singleton_self v))
  | @membership _ items hop _ hitems =>
    rw [Operator.operandsOf_of_isMembership hop, Repertoire.toItems_of_isItem hitems] at hoperands
    exact .inr ⟨⟨op, hoperator, by rw [Operator.isMulti, hop]; rfl⟩, items, rfl, hoperands⟩
  | @range _ low high hop hlow hhigh =>
    rw [Operator.operandsOf_of_isRange hop, Repertoire.bounds?_of_isItem hlow hhigh] at hoperands
    exact .inr ⟨⟨op, hoperator, Operator.isMulti_of_isRange hop⟩, _, rfl, hoperands⟩

/-- The field of a rule that is written is configured, where fields are. -/
theorem FormatPlan.has_of_fieldOf {plan : FormatPlan} {r : Rule} {path : Path}
    {field : Option Field} (hsome : plan.style.fields ≠ [])
    (h : plan.fieldOf r path = .ok field) : plan.style.fields.Has r.field := by
  unfold fieldOf at h
  rw [List.isEmpty_eq_false_iff.mpr hsome] at h
  obtain ⟨found, hfound, h⟩ := Result.bind_eq_ok h
  cases found with
  | none => cases h
  | some f => exact ⟨f, hfound⟩

namespace Echo.Carries
variable {α : Type} {w : Writer α} {d : Dialect} {traits : SourceTraits} {rep : Repertoire}
  {e : Echo w d traits rep} {Known : Value → Prop} (h : e.Carries Known) {table : FieldTable}
  (hsome : table ≠ [])
include h hsome

/-- Such a rule is written as a part that is about configured fields. -/
theorem isPart_of_writeRule {op : Operator} {r : Rule} (hr : r.IsClear d rep table op)
    {path : Path} {s s' : Bindings} {out : α}
    (hwrite : w.writeRule (.configured table .never d) path r s = .ok (out, s'))
    (hempty : w.isEmpty out = false) : e.IsPart (Rule.Within table) out := by
  rw [w.writeRule_apply rfl] at hwrite
  obtain ⟨field, hfield, hwrite⟩ := Result.bind_eq_ok hwrite
  have hhas : table.Has r.field := FormatPlan.has_of_fieldOf hsome hfield
  split at hwrite
  case isFalse => cases hwrite
  case isTrue =>
    obtain ⟨plan, hplan, hwrite⟩ := Result.bind_eq_ok hwrite
    have hpolicy := FormatPlan.policy_of_forField hfield hplan
    obtain ⟨policy, rfl⟩ := FormatPlan.eq_of_forField hplan
    obtain rfl : policy = (FormatPlan.configured table .never d).policyOf r := hpolicy
    obtain ⟨name, v, source, hname, hsource, halike, htakes⟩ := hr.suits.exists_alike
    have hfields : op.isNullCheck = false → r.comparesFields = source.isField := halike.fields
    have hsame : d = .mongodb → r.comparesFields = source.isField ∧
        (op.isNullCheck = true → r.comparesFields = false) := by
      refine fun hd => ⟨?_, hr.check hd⟩
      cases hnull : op.isNullCheck with
      | false => exact hfields hnull
      | true =>
        rw [hr.check hd hnull, hsource, hnull]
        rfl
    have hnamed : table.Has (.text name) := by
      have hfield : r.field = .text name := halike.field
      rwa [hfield] at hhas
    have hothers : source.isField = true → ∀ w ∈ op.operandsOf v, w.IsStorable ∧ table.Has w := by
      intro hfield
      have hnull : op.isNullCheck = false := by
        cases hnull : op.isNullCheck with
        | false => rfl
        | true =>
          rw [hsource, hnull] at hfield
          cases hfield
      have hoperands : op.operandsOf r.value = op.operandsOf v := halike.operands
      exact hoperands ▸ hr.others ((hfields hnull).trans hfield)
    have hplain : ∀ context,
        w.write (.configured table ((FormatPlan.configured table .never d).policyOf r) d) r context =
          w.write (.usual d) (Rule.ofSource source name op v) context :=
      h.alike halike hr.spared hsame
    have hwrite : w.write (.usual d) (Rule.ofSource source name op v) (some ⟨path, s.count, field⟩)
        s = .ok (out, s') := hplain _ ▸ hwrite
    rcases htakes with htakes | ⟨hmulti, rfl⟩
    · obtain ⟨out', c, hout, hreads, hbuilds⟩ := e.rule .null hname htakes
      have hsame : w.write (.usual d) (Rule.ofSource source name op v)
          (some ⟨path, s.count, field⟩) s = .ok (out', s) := congrFun (hout _) s
      obtain ⟨rfl, -⟩ := Prod.mk.inj (Except.ok.inj (hwrite.symm.trans hsame))
      have hwithin : (Rule.ofSource source name op v).Within table :=
        Rule.within_ofSource hnamed htakes hothers
      exact ⟨c, hreads, Clause.within_of_builds hbuilds hwithin, hbuilds.exists_negate⟩
    · obtain ⟨r', hreads, hfield, hvalues⟩ := h.missing hmulti hwrite hempty
      refine ⟨.rule r', hreads, ?_, _, rfl⟩
      rw [Clause.rules]
      refine List.forall_mem_singleton.mpr ⟨⟨name, hfield, hnamed⟩, fun hfields => ?_⟩
      cases hvalues.symm.trans hfields

/-- Such a tree is written as what is read, as a whole, as a tree about configured fields. -/
theorem within_of_run {t root : Node} (ht : t.IsTree) (hroot : t.standardRoot = .ok root)
    (hknown : ∀ combinator ∈ root.combinators, Known combinator)
    (hlive : ∀ r ∈ root.liveRules, ∃ op, r.2.IsClear d rep table op) {output : Option α}
    {bindings : Bindings}
    (hwrite : w.run (.configured table .never d) t = .ok (output, bindings)) {whole : Node}
    (hwhole : (e.whole (output.getD e.always)).bind (Clause.toTree traits .arrays) = .ok whole) :
    ∀ r ∈ whole.rules, r.Within table := by
  have hyields : w.Yields (.configured table .never d)
      (fun r => ∃ op, r.IsClear d rep table op) Known (e.IsPart (Rule.Within table))
      (e.IsWhole (Rule.Within table)) := {
    rule := by
      rintro r path s s' out ⟨op, hr⟩ hwrite hempty
      exact h.isPart_of_writeRule hsome hr hwrite hempty
    group := h.group fun _ hr => hr.invert
    root := h.root fun _ hr => hr.invert }
  have houtput := hyields.run ht hroot rfl hknown hlive hwrite
  cases output with
  | none =>
    obtain rfl : .group (.text "and") {} [] = whole := Except.ok.inj (e.blank.symm.trans hwhole)
    rw [Node.rules_group]
    simp
  | some out =>
    obtain ⟨root?, hread, htree⟩ := Result.bind_eq_ok hwhole
    refine Clause.forall_rules_of_toTree Rule.Within.of_recovered ?_ htree
    rintro c rfl
    exact houtput out rfl c hread

end Echo.Carries

/-! ### Dialects -/

/-- A multi-value rule without operands is left out, but for other fields in no list. -/
theorem Dialect.skips_ofSource_nil {d : Dialect} {source : ValueSource} {name : String}
    {op : Operator} (hmulti : op.isMulti = true)
    (hlist : d = .mongodb → op.isMembership = true → source.isField = false) :
    d.skips (Rule.ofSource source name op (.list [])) = true := by
  have hop := Rule.operator?_ofSource source name op (.list []) .null
  rw [Operator.isMulti, Bool.or_eq_true] at hmulti
  rcases hmulti with hmember | hrange
  · exact (skips_of_isMembership hop hmember fun hd => hlist hd hmember).mpr rfl
  · exact (skips_of_isRange hop hrange).mpr rfl

/-- Nothing is written of a rule that is left out, if its clause is nothing then. -/
theorem Writer.Encloses.isEmpty_of_skips {w : Writer Value} {d : Dialect}
    {clause : Rule → Result Value} (h : w.Encloses d clause) {r : Rule}
    (hclause : ∀ out, clause r = .ok out → (out.isNothing = true ↔ d.skips r = true))
    (hskip : d.skips r = true) {context : Option RuleContext} {s s' : Bindings} {out : Value}
    (hwrite : w.write (.usual d) r context s = .ok (out, s')) : w.isEmpty out = true := by
  rw [h.write] at hwrite
  obtain ⟨out', hout, hpair⟩ := Result.map_eq_ok hwrite
  obtain ⟨rfl, -⟩ := Prod.mk.inj hpair
  rw [h.isEmpty hout]
  exact (hclause _ hout).mpr hskip

namespace Sql
open Source

/-- A group stands for that of the clauses of its members. -/
theorem isPart_joinGroup {P : Rule → Prop} {outs : List Value} {combinator : Value}
    {negated : Bool} {out : Value} (hparts : ∀ out ∈ outs, echo.IsPart P out) (hne : outs ≠ [])
    (hknown : ∃ j : Junction, combinator = .text j.name)
    (h : joinGroup combinator negated outs = .ok out) : echo.IsPart P out := by
  obtain ⟨j, rfl⟩ := hknown
  obtain ⟨head, cs, hreads, hcs⟩ := echo.exists_clauses hparts hne
  obtain ⟨s, hs, hstands⟩ := stands_joinGroup negated hreads
  obtain rfl := Except.ok.inj (hs.symm.trans h)
  exact ⟨_, ⟨s, rfl, hstands⟩, .join hcs j negated⟩

/-- A condition is empty for a rule that is left out alone. -/
theorem isNothing_iff_skips {r : Rule} {op : Operator} (hop : r.operator? = some op) (out : Value)
    (hout : (plainRule (.usual .sql) r).map .text = .ok out) :
    out.isNothing = true ↔ Dialect.sql.skips r = true := by
  obtain ⟨text, htext, rfl⟩ := Result.map_eq_ok hout
  simpa [Value.isNothing] using (ends_plainRule_skips hop).of_eq_ok htext

/-- Conditions carry the rules of a tree over, if its combinators are words of theirs. -/
theorem carries : echo.Carries fun combinator => ∃ j : Junction, combinator = .text j.name where
  alike h hspared _ context := by
    simp only [plainWriter, plainRule_of_alike h hspared]
  missing {source name op context s s' out} hmulti hwrite hempty := by
    have hclause := isNothing_iff_skips (Rule.operator?_ofSource source name op (.list []) .null)
    have hnone := plainWriter_encloses.isEmpty_of_skips hclause
      (Dialect.skips_ofSource_nil hmulti (by rintro ⟨⟩)) hwrite
    cases hnone.symm.trans hempty
  group _ hparts hne hknown h := isPart_joinGroup hparts hne hknown h
  root _ hparts hne hknown h := by
    obtain ⟨c, ⟨s, rfl, hstands⟩, hc⟩ := isPart_joinGroup hparts hne hknown h
    intro c' hwhole
    have hread := readText_terms punctuates .sql .and (s := s) (by simp) (.cons hstands .nil)
    obtain rfl := Option.some.inj (Except.ok.inj (hread.symm.trans hwhole))
    exact (Clause.IsOf.join (by simpa using hc) .and false).rules

end Sql

namespace Expression
open Source
variable {S Q : Type} {l : Language} {g : Grammar S Q} {m : Meaning Q} {rep : Repertoire}
  {text : List Char → List Char}

/-- A combinator that a language has a connective for is one of two. -/
theorem exists_junction_of_joinGroup {combinator : Value} {negated isRoot : Bool}
    {outs : List Value} {out : Value} (h : l.joinGroup combinator negated isRoot outs = .ok out) :
    ∃ j : Junction, l.joinGroup (.text j.name) negated isRoot outs = .ok out := by
  obtain ⟨connective, hconnective, h⟩ := Result.bind_eq_ok h
  suffices hj : ∃ j : Junction, l.connective (.text j.name) = .ok connective by
    obtain ⟨j, hj⟩ := hj
    refine ⟨j, ?_⟩
    rw [Language.joinGroup, hj]
    exact h
  obtain ⟨name, -, hname⟩ := Result.bind_eq_ok hconnective
  dsimp only at hname
  split at hname
  · exact ⟨.and, hname⟩
  split at hname
  · exact ⟨.or, hname⟩
  · cases hname

theorem Speaks.dialect_ne (h : Speaks l g m text rep) :
    l.dialect ≠ .qdrant ∧ l.dialect ≠ .mongodb := by
  rcases h.dialect with hd | hd <;> rw [hd] <;> exact ⟨by decide, by decide⟩

/-- An expression is empty for a rule that is left out alone. -/
theorem isNothing_iff_skips (h : Speaks l g m text rep)
    (hmembership : ∀ field items negated, l.membership field items negated ≠ "") {r : Rule}
    {op : Operator} (hop : r.operator? = some op) (out : Value)
    (hout : (l.writeRule (.usual l.dialect) r).map .text = .ok out) :
    out.isNothing = true ↔ l.dialect.skips r = true := by
  obtain ⟨text, htext, rfl⟩ := Result.map_eq_ok hout
  simpa [Value.isNothing] using (Language.ends_writeRule_skips hop h.dialect_ne.1 h.dialect_ne.2
    hmembership).of_eq_ok htext

section
variable (h : Speaks l g m text rep)
  (hnegation : ∀ {P : Rule → Prop} {c : Clause}, (∀ r, P r → P (Clause.invertRule r)) →
    c.IsOf P → ∃ c', m.negation c = .ok c' ∧ c'.IsOf P)
include h hnegation

/-- A group stands for that of the clauses of its members, where it has parentheses. -/
theorem isPart_joinGroup {P : Rule → Prop} (hinvert : ∀ r, P r → P (Clause.invertRule r))
    {outs : List Value} {combinator : Value} {negated isRoot : Bool} {out : Value}
    (hparts : ∀ out ∈ outs, h.echo.IsPart P out) (hne : outs ≠ [])
    (hparentheses : (negated || !isRoot) = true)
    (hjoin : l.joinGroup combinator negated isRoot outs = .ok out) : h.echo.IsPart P out := by
  obtain ⟨j, hjoin⟩ := exists_junction_of_joinGroup hjoin
  obtain ⟨head, cs, hreads, hcs⟩ := h.echo.exists_clauses hparts hne
  obtain ⟨ss, htexts, hstands⟩ := exists_texts hreads
  obtain ⟨joined, hjoined, hout⟩ := joinGroup_eq (l := l) negated isRoot htexts
  obtain rfl := Except.ok.inj (hout.symm.trans hjoin)
  have hinner := Stands.group h.punctuates j hstands
  rw [← hjoined] at hinner
  have hgroup : (Clause.join j false (head :: cs)).IsOf P := .join hcs j false
  cases negated with
  | false =>
    obtain rfl : isRoot = false := by simpa using hparentheses
    exact ⟨_, ⟨_, rfl, by simpa using hinner⟩, hgroup⟩
  | true =>
    obtain ⟨c', hc', hcomplement⟩ := hnegation hinvert hgroup
    have hnegated := Stands.negation h.punctuates hinner hc'
    exact ⟨c', ⟨_, rfl, by simpa using hnegated⟩, hcomplement⟩

/-- The root is read as the group of the clauses of its members. -/
theorem isWhole_joinGroup {P : Rule → Prop} (hinvert : ∀ r, P r → P (Clause.invertRule r))
    {outs : List Value} {combinator : Value} {negated : Bool} {out : Value}
    (hparts : ∀ out ∈ outs, h.echo.IsPart P out) (hne : outs ≠ [])
    (hjoin : l.joinGroup combinator negated true outs = .ok out) : h.echo.IsWhole P out := by
  intro c hwhole
  cases negated with
  | true =>
    obtain ⟨c', ⟨s, rfl, hstands⟩, hc'⟩ :=
      isPart_joinGroup h hnegation hinvert hparts hne rfl hjoin
    have hread := readText_terms h.punctuates l.dialect .and (s := s) (by simp)
      (.cons hstands .nil)
    obtain rfl := Option.some.inj (Except.ok.inj (hread.symm.trans hwhole))
    exact (Clause.IsOf.join (by simpa using hc') .and false).rules
  | false =>
    obtain ⟨j, hjoin⟩ := exists_junction_of_joinGroup hjoin
    obtain ⟨head, cs, hreads, hcs⟩ := h.echo.exists_clauses hparts hne
    obtain ⟨ss, htexts, hstands⟩ := exists_texts hreads
    obtain ⟨joined, hjoined, hgroup⟩ := joinGroup_eq (l := l) false true htexts
    obtain rfl := Except.ok.inj (hgroup.symm.trans hjoin)
    have hread := readText_terms h.punctuates l.dialect j hjoined hstands
    obtain rfl := Option.some.inj (Except.ok.inj (hread.symm.trans hwhole))
    exact (Clause.IsOf.join hcs j false).rules

/-- Expressions carry the rules of a tree over. -/
theorem carries (hmembership : ∀ field items negated, l.membership field items negated ≠ "")
    (hwriter : l.writer.Encloses l.dialect
      fun r => (l.writeRule (.usual l.dialect) r).map .text) :
    h.echo.Carries fun _ => True where
  alike halike hspared _ context := by
    simp only [Language.writer, Language.writeRule_of_alike halike l hspared]
  missing {source name op context s s' out} hmulti hwrite hempty := by
    have hclause := isNothing_iff_skips h hmembership
      (Rule.operator?_ofSource source name op (.list []) .null)
    have hnone := hwriter.isEmpty_of_skips hclause
      (Dialect.skips_ofSource_nil hmulti fun hd => absurd hd h.dialect_ne.2) hwrite
    cases hnone.symm.trans hempty
  group hinvert hparts hne _ hjoin :=
    isPart_joinGroup h hnegation hinvert hparts hne (by simp) hjoin
  root hinvert hparts hne _ hjoin := isWhole_joinGroup h hnegation hinvert hparts hne hjoin

end
end Expression

namespace Cel
open Expression

/-- The complement is that of the clause, or the opposite of a membership in parentheses. -/
theorem exists_negate {P : Rule → Prop} {c : Clause} (hinvert : ∀ r, P r → P (Clause.invertRule r))
    (h : c.IsOf P) : ∃ c', negate c = .ok c' ∧ c'.IsOf P := by
  unfold negate
  split
  · rename_i r
    split
    · refine ⟨_, rfl, ?_, _, rfl⟩
      rw [Clause.rules]
      exact List.forall_mem_singleton.mpr (hinvert r (h.rules r (by simp [Clause.rules])))
    · exact h.negate hinvert
  · exact h.negate hinvert

theorem carries : speaks.echo.Carries fun _ => True :=
  Expression.carries speaks exists_negate
    (fun field items negated => by cases negated <;> simp [Language.cel])
    (Language.writer_encloses (l := .cel) fun _ => rfl)

end Cel

namespace Spel
open Expression

theorem carries : speaks.echo.Carries fun _ => True :=
  Expression.carries speaks (fun hinvert h => h.negate hinvert)
    (fun field items negated => by cases negated <;> simp [Language.spel])
    (Language.writer_encloses (l := .spel) fun _ => rfl)

end Spel

namespace Mongo

/-- Documents under `$nor` state the complement of the disjunction of their clauses. -/
theorem reads_norOf {outs : List Value} {cs : List Clause} {c : Clause}
    (h : List.Forall₂ Reads outs cs) (hnor : nor cs = .ok c) :
    Reads (entry "$nor" (.list outs)) c := by
  refine ⟨"$nor", _, rfl, fun depth => ?_⟩
  have hlogical : logical .arrays depth "$nor" (.list outs) = .ok c := by
    rw [logical]
    simp only [documents_of_reads h]
    exact hnor
  rw [entryClauses, entryClauses, hlogical]
  rfl

theorem exists_nor {P : Rule → Prop} {cs : List Clause}
    (hinvert : ∀ r, P r → P (Clause.invertRule r)) (h : ∀ c ∈ cs, c.IsOf P) :
    ∃ c, nor cs = .ok c ∧ c.IsOf P := by
  unfold nor
  split
  · exact ⟨_, rfl, .join h .or true⟩
  · exact (h _ (List.mem_singleton_self _)).negate hinvert
  · exact ⟨_, rfl, .join h .or true⟩

/-- A group states that of the clauses of its members, or its complement. -/
theorem isPart_joinGroup {P : Rule → Prop} (hinvert : ∀ r, P r → P (Clause.invertRule r))
    {outs : List Value} {combinator : Value} {negated : Bool} {out : Value}
    (hparts : ∀ out ∈ outs, echo.IsPart P out) (hne : outs ≠ [])
    (h : joinGroup combinator negated outs = .ok out) : echo.IsPart P out := by
  obtain ⟨head, cs, hreads, hcs⟩ := echo.exists_clauses hparts hne
  obtain ⟨key, hkey, h⟩ := Result.bind_eq_ok h
  have hjoined : echo.IsPart P (entry key (.list outs)) := by
    obtain ⟨name, -, hname⟩ := Result.bind_eq_ok hkey
    dsimp only at hname
    split at hname
    · obtain rfl := Except.ok.inj hname
      exact ⟨_, reads_group .and hreads, .join hcs .and false⟩
    split at hname
    · obtain rfl := Except.ok.inj hname
      exact ⟨_, reads_group .or hreads, .join hcs .or false⟩
    split at hname
    · obtain rfl := Except.ok.inj hname
      obtain ⟨c, hnor, hc⟩ := exists_nor hinvert hcs
      exact ⟨c, reads_norOf hreads hnor, hc⟩
    · cases hname
  obtain rfl := Except.ok.inj h
  cases negated with
  | false => exact hjoined
  | true =>
    obtain ⟨c, hread, hc⟩ := hjoined
    obtain ⟨c', hnor, hc'⟩ := exists_nor hinvert (List.forall_mem_singleton.mpr hc)
    exact ⟨c', reads_norOf (.cons hread .nil) hnor, hc'⟩

/-- That a field is in no list of other fields, or not, is a rule on literals, of which there
are none. -/
theorem reads_fieldMembership_nil (field : String) {op : Operator} (hop : op.isMembership = true) :
    ∃ out r, fieldComparison op (Rule.ofSource .field field op (.list [])) = .ok out ∧
      Reads out (.rule r) ∧ r.field = .text field ∧ r.comparesFields = false := by
  have hin : expression (entry "$in" (.list [reference (.text field), .list []])) =
      .ok (some (.rule (Rule.of field .isIn (.list [])))) := by
    have hrule : expressionRule "$in" (reference (.text field)) (.list []) =
        .ok (Rule.of field .isIn (.list [])) := by
      have hkey : comparison? "$in" = none := by decide
      unfold expressionRule
      simp only [hkey, operand_reference]
      rfl
    rw [entry, expression, operation]
    simp only [hrule]
    rfl
  have hnot : expression (entry "$not" (.list [entry "$in" (.list [reference (.text field),
      .list []])])) = .ok (some (.rule (Clause.invertRule (Rule.of field .isIn (.list []))))) := by
    rw [entry, expression, operation, if_neg (by simp), if_pos rfl]
    simp only [hin]
    rfl
  cases op <;> cases hop
  case isIn => exact ⟨_, _, rfl, reads_expression hin, rfl, rfl⟩
  case notIn => exact ⟨_, _, rfl, reads_expression hnot, rfl, rfl⟩

/-- A document is empty for a rule that is left out alone. -/
theorem isNothing_iff_skips {r : Rule} {op : Operator} (hop : r.operator? = some op)
    {name : String} (hname : r.field = .text name) (out : Value)
    (hout : writeRule (.usual .mongodb) r = .ok out) :
    out.isNothing = true ↔ Dialect.mongodb.skips r = true :=
  ((ends_writeRule_skips hop hname).of_eq_ok hout).isNothing_iff rfl

/-- Documents carry the rules of a tree over. -/
theorem carries : echo.Carries fun _ => True where
  alike h hspared hsame context := by
    obtain ⟨hfields, hcheck⟩ := hsame rfl
    simp only [writer, writeRule_of_alike h hspared hfields hcheck]
  missing {source name op context s s' out} hmulti hwrite hempty := by
    by_cases hlist : op.isMembership = true ∧ source.isField = true
    · obtain ⟨hmember, hfield⟩ := hlist
      obtain rfl : source = .field := by
        cases source <;> first | rfl | cases hfield
      obtain ⟨out', r, hout, hread⟩ := reads_fieldMembership_nil name hmember
      have hrule : writeRule (.usual .mongodb) (Rule.ofSource .field name op (.list [])) =
          .ok out' := (writeRule_field name op (.list []) .null).trans hout
      rw [writer_encloses.write, hrule] at hwrite
      obtain ⟨rfl, -⟩ := Prod.mk.inj (Except.ok.inj hwrite)
      exact ⟨r, hread⟩
    · have hskip : Dialect.mongodb.skips (Rule.ofSource source name op (.list [])) = true :=
        Dialect.skips_ofSource_nil hmulti fun _ hmember =>
          Bool.eq_false_iff.mpr fun hfield => hlist ⟨hmember, hfield⟩
      have hclause := isNothing_iff_skips
        (Rule.operator?_ofSource source name op (.list []) .null) rfl
      have hnone := writer_encloses.isEmpty_of_skips hclause hskip hwrite
      cases hnone.symm.trans hempty
  group hinvert hparts hne _ h := isPart_joinGroup hinvert hparts hne h
  root hinvert hparts hne _ h := by
    obtain ⟨c, hreads, hc⟩ := isPart_joinGroup hinvert hparts hne h
    intro c' hwhole
    have hread : Reads _ c := hreads
    obtain rfl := Option.some.inj (Except.ok.inj (hread.clause?.symm.trans hwhole))
    exact hc.rules

end Mongo

namespace JsonLogic

/-- A group is read as that of the clauses of its members. -/
theorem isPart_joinGroup {P : Rule → Prop} {outs : List Value} {combinator : Value}
    {negated : Bool} {out : Value} (hparts : ∀ out ∈ outs, (echo .never).IsPart P out)
    (hne : outs ≠ []) (h : joinGroup combinator negated outs = .ok out) :
    (echo .never).IsPart P out := by
  obtain ⟨j, hj⟩ := exists_junction h
  obtain ⟨head, cs, hreads, hcs⟩ := (echo .never).exists_clauses hparts hne
  obtain ⟨out', hout, hread⟩ := exists_joinGroup j negated hreads
  obtain rfl := Except.ok.inj (hout.symm.trans hj)
  exact ⟨_, hread, .join hcs j negated⟩

/-- An object is empty for a rule that is left out alone. -/
theorem isNothing_iff_skips {r : Rule} {op : Operator} (hop : r.operator? = some op) (out : Value)
    (hout : writeRule (.usual .jsonlogic) r = .ok out) :
    out.isNothing = true ↔ Dialect.jsonlogic.skips r = true :=
  ((ends_writeRule_skips hop).of_eq_ok hout).isNothing_iff rfl

/-- JsonLogic carries the rules of a tree over. -/
theorem carries : (echo .never).Carries fun _ => True where
  alike h hspared _ context := by
    simp only [writer, writeRule_of_alike h hspared]
  missing {source name op context s s' out} hmulti hwrite hempty := by
    have hclause := isNothing_iff_skips (Rule.operator?_ofSource source name op (.list []) .null)
    have hnone := writer_encloses.isEmpty_of_skips hclause
      (Dialect.skips_ofSource_nil hmulti (by rintro ⟨⟩)) hwrite
    cases hnone.symm.trans hempty
  group _ hparts hne _ h := isPart_joinGroup hparts hne h
  root _ hparts hne _ h := by
    obtain ⟨c, hreads, hc⟩ := isPart_joinGroup hparts hne h
    intro c' hwhole
    have hread : Reads .never _ c := hreads
    obtain rfl := Option.some.inj (Except.ok.inj (hread.clause?.symm.trans hwhole))
    exact hc.rules

end JsonLogic

end RuleTree
