import RuleTree.Proofs.Endings
import RuleTree.Proofs.FewDigits

/-! # Trees that are read

Whatever the source, the dialect and the options are, a tree that is read is made of
the same parts: rules on a field that is named by a text, with one of the operators and a
value or the names of other fields, and groups under `and` and `or` in which the members
and the combinators take turns.  Nothing in it is disabled (`Node.IsRead`).

A tree that is read has a standard form, which is such a tree as well and in which every rule is
live (`Node.IsRead.exists_standardRoot`, `Node.IsRead.rules_liveFrom`).  Its values can be written
to the log under a limit of digits if those of its rules can (`Node.IsReadWithin`).
-/
namespace RuleTree

/-! ### Faults -/

/-- What readers find wrong with a source: a fault in it, or a part of it that no rule
stands for. -/
def Error.IsSourceFault : Error → Prop
  | .parse _ _ => True
  | .unrepresentable _ _ => True
  | _ => False

/-- What goes wrong under a limit of digits where no numeral of the source has more digits than
the bound, if there is one: a fault that is worded within the bound.  The limit itself is met only
if the bound is another one. -/
def Error.IsFaultWithin (limit bound : DigitLimit) : Error → Prop
  | .misuse .tooManyDigits => bound ≠ limit
  | e => e.IsSourceFault ∧ ∀ digits ∈ bound, e.written.all (·.isShort digits) = true

/-- What is wrong where a source is read: the source, or a field in it that is not one
of those that are configured. -/
def ParsePlan.Refuses (plan : ParsePlan) (limit bound : DigitLimit) : Error → Prop
  | .unknownField name _ =>
    plan.fields ≠ [] ∧ ∀ digits ∈ bound, name.isShort digits = true
  | e => e.IsFaultWithin limit bound

theorem Error.IsFaultWithin.refuses {limit bound : DigitLimit} {e : Error}
    (h : e.IsFaultWithin limit bound) (plan : ParsePlan) : plan.Refuses limit bound e := by
  cases e with
  | unknownField => exact h.1.elim
  | _ => exact h

namespace Result
variable {limit bound : DigitLimit} {α β : Type} {P : α → Prop} {R : β → Prop}

/-- A step of reading: what it gives has a property, and it fails only for something that
is wrong with the source. -/
structure ReadsWithin (limit bound : DigitLimit) (P : α → Prop) (x : Result α) : Prop where
  gives : ∀ a, x = .ok a → P a
  refuses : ∀ e, x = .error e → e.IsFaultWithin limit bound

/-- A step of reading where integers may have any number of digits. -/
abbrev Reads (P : α → Prop) (x : Result α) : Prop := x.ReadsWithin none none P

theorem reads_iff_ends {x : Result α} :
    x.ReadsWithin limit bound P ↔ x.Ends (Error.IsFaultWithin limit bound) P := by
  cases x with
  | ok a => exact ⟨fun h => h.gives a rfl, fun h => ⟨fun _ ha => Except.ok.inj ha ▸ h, nofun⟩⟩
  | error e =>
    exact ⟨fun h => h.refuses e rfl, fun h => ⟨nofun, fun _ he => Except.error.inj he ▸ h⟩⟩

theorem reads_ok {a : α} (h : P a) : ReadsWithin limit bound P (.ok a) := reads_iff_ends.mpr h

/-- A fault is found where its values can be written within the bound. -/
theorem reads_fault {e : Error} (h : e.IsSourceFault)
    (hwritten : ∀ digits ∈ bound, e.written.all (·.isShort digits) = true) :
    ReadsWithin limit bound P (.error e) := by
  refine reads_iff_ends.mpr ?_
  cases e with
  | parse | unrepresentable => exact ⟨h, hwritten⟩
  | _ => cases h

theorem reads_error {e : Error} (h : e.IsSourceFault) : Reads P (.error e) := reads_fault h nofun

theorem reads_fail (fault : ParseFault) : Reads P fault.fail := reads_error trivial

/-- The wording of most faults has no values. -/
theorem reads_worded {fault : ParseFault} {place : Place} (h : fault.written = []) :
    ReadsWithin limit bound P (.error (.parse fault place)) := by
  refine reads_fault trivial fun digits _ => ?_
  rw [Error.written, h, List.all_nil]

/-- A part that no rule stands for is worded by texts. -/
theorem reads_unrepresentable (token dialect : String) :
    ReadsWithin limit bound P (.error (.unrepresentable (.text token) (.text dialect))) :=
  reads_fault trivial fun _ _ => rfl

theorem ReadsWithin.bind {x : Result α} {f : α → Result β} (h : x.ReadsWithin limit bound P)
    (hnext : ∀ a, P a → (f a).ReadsWithin limit bound R) :
    (x >>= f).ReadsWithin limit bound R :=
  reads_iff_ends.mpr ((reads_iff_ends.mp h).bind fun a ha => reads_iff_ends.mp (hnext a ha))

theorem ReadsWithin.mono {x : Result α} {R : α → Prop} (h : x.ReadsWithin limit bound P)
    (hnext : ∀ a, P a → R a) : x.ReadsWithin limit bound R :=
  ⟨fun a ha => hnext a (h.gives a ha), h.refuses⟩

theorem ReadsWithin.map {x : Result α} {f : α → β} (h : x.ReadsWithin limit bound P)
    (hnext : ∀ a, P a → R (f a)) : ReadsWithin limit bound R (x.map f) :=
  reads_iff_ends.mpr ((reads_iff_ends.mp h).map hnext)

/-- What has no more digits than the bound is within the limit, if that is the bound. -/
theorem reads_check {conversions : List Conversion}
    (h : ∀ digits ∈ bound, ∀ c ∈ conversions, c.fits digits = true) :
    (limit.check conversions).ReadsWithin limit bound fun _ => True := by
  cases limit with
  | none => exact reads_ok trivial
  | some digits =>
    simp only [DigitLimit.check]
    split
    · exact reads_ok trivial
    · rename_i hmany
      refine reads_iff_ends.mpr (ends_error ?_)
      rintro rfl
      exact hmany (List.all_eq_true.mpr (h digits rfl))

/-- What is wrong with a source is found wrong under any plan. -/
theorem ReadsWithin.ends {x : Result α} (h : x.ReadsWithin limit bound P) (plan : ParsePlan) :
    x.Ends (plan.Refuses limit bound) P :=
  (reads_iff_ends.mp h).mono (fun _ he => he.refuses plan) fun _ ha => ha

end Result

section
variable {limit bound : DigitLimit}

theorem Operator.reads_unmapFrom (token name : String) :
    (unmapFrom (.text token) (.text name)).ReadsWithin limit bound fun _ => True := by
  unfold unmapFrom
  refine Result.ReadsWithin.bind (P := fun _ => True) (Result.reads_ok trivial) fun d _ => ?_
  refine Result.ReadsWithin.bind (P := fun _ => True) (Result.reads_ok trivial) fun _ _ => ?_
  split
  · exact Result.reads_ok trivial
  · exact Result.reads_unrepresentable _ _

end

/-! ### Depths -/

/-- The plan counts groups: its limit, if there is one, is a number. -/
def ParsePlan.CountsDepth (plan : ParsePlan) : Prop :=
  ∀ limit, plan.maxDepth = some limit → ∀ n, ∃ b, limit.lessThanInt n = .ok b

/-- What compares with one integer compares with all. -/
theorem Value.exists_lessThanInt {v : Value} {m : Int} {b : Bool} (h : v.lessThanInt m = .ok b)
    (n : Int) : ∃ c, v.lessThanInt n = .ok c := by
  unfold lessThanInt at h ⊢
  split at h <;> simp_all [Misuse.fail]

theorem ParseOptions.countsDepth_of_resolve {o : ParseOptions} {plan : ParsePlan}
    (h : o.resolve = .ok plan) : plan.CountsDepth := by
  -- whatever the limit is, it is in the plan as it has passed
  have hplan {maxDepth : Option Value} (h : (do
      let policy ← NumberPolicy.ofValue o.parseNumbers
      let fields ← FieldTable.ofInput o.fields
      return ({
        policy := policy
        fields := fields
        interleaved := o.interleaved.truthy
        listsAsArrays := o.listsAsArrays.truthy
        maxDepth := maxDepth } : ParsePlan)) = Except.ok plan) : plan.maxDepth = maxDepth := by
    obtain ⟨policy, -, h⟩ := Result.bind_eq_ok h
    obtain ⟨fields, -, h⟩ := Result.bind_eq_ok h
    rw [← Except.ok.inj h]
  unfold resolve at h
  split at h
  · rintro limit hlimit
    rw [hplan h] at hlimit
    cases hlimit
  · rename_i given _
    obtain ⟨small, hsmall, h⟩ := Result.bind_eq_ok h
    split at h
    · cases h
    · rintro limit hlimit
      rw [hplan h] at hlimit
      obtain rfl := Option.some.inj hlimit
      exact Value.exists_lessThanInt hsmall

/-- The plan counts groups, and its limit can be written within the bound. -/
structure ParsePlan.CountsWithin (bound : DigitLimit) (plan : ParsePlan) : Prop where
  counts : plan.CountsDepth
  short : ∀ depth ∈ plan.maxDepth, ∀ digits ∈ bound, depth.isShort digits = true

theorem ParsePlan.CountsDepth.within {plan : ParsePlan} (h : plan.CountsDepth) :
    plan.CountsWithin none :=
  ⟨h, fun _ _ => nofun⟩

theorem ParsePlan.CountsWithin.reads_checkDepth {limit bound : DigitLimit} {plan : ParsePlan}
    (h : plan.CountsWithin bound) (depth : Nat) :
    (plan.checkDepth depth).ReadsWithin limit bound fun _ => True := by
  unfold checkDepth
  split
  · exact Result.reads_ok trivial
  · rename_i deepest hdeepest
    obtain ⟨b, hb⟩ := h.counts deepest hdeepest depth
    rw [hb]
    cases b with
    | true =>
      refine Result.reads_fault trivial fun digits hdigits => ?_
      simpa [Error.written, ParseFault.written] using h.short deepest hdeepest digits hdigits
    | false => exact Result.reads_ok trivial

/-! ### Rules -/

/-- A rule as readers make them: between a field and a value, or between a field and
another one or several others.  `matching` says whether fields may be matched against
fields. -/
inductive Rule.IsRead (matching : Bool) : Rule → Prop where
  | value (field : String) (operator : Operator) (v : Value) :
      IsRead matching (.of field operator v)
  | field (field : String) (operator : Operator) (other : String) :
      (operator.isTextMatch = true → matching = true) →
      IsRead matching (.ofFields field operator (.text other))
  | fields (field : String) (operator : Operator) (others : List String) :
      operator.isMembership = true ∨ operator.isRange = true →
      IsRead matching (.ofFields field operator (.list (others.map .text)))

namespace Rule.IsRead
variable {matching : Bool} {r : Rule} (h : r.IsRead matching)
include h

theorem exists_field : ∃ name, r.field = .text name := by
  cases h <;> exact ⟨_, rfl⟩

theorem exists_operator : ∃ op, r.operator? = some op := by
  cases h <;> exact ⟨_, Operator.ofValue?_toValue _⟩

theorem disabled_eq : r.disabled = false := by
  cases h <;> rfl

theorem source_eq : r.source = .value ∨ r.source = .field := by
  cases h with
  | value => exact .inl rfl
  | field | fields => exact .inr rfl

/-- Other fields are named by texts. -/
theorem exists_texts_of_comparesFields (hfields : r.comparesFields = true) :
    ∃ names : List String, r.value.toItems = names.map .text := by
  cases h with
  | value => cases hfields
  | field field operator other =>
    refine Value.exists_eq_map_text fun item hitem => ?_
    obtain ⟨hraw, -⟩ := List.mem_filter.mp hitem
    obtain ⟨piece, -, rfl⟩ := List.mem_map.mp hraw
    exact ⟨_, rfl⟩
  | fields field operator others =>
    refine Value.exists_eq_map_text fun item hitem => ?_
    obtain ⟨hraw, -⟩ := List.mem_filter.mp hitem
    obtain ⟨name, hname, rfl⟩ := List.mem_map.mp hraw
    obtain ⟨s, -, rfl⟩ := List.mem_map.mp hname
    exact ⟨_, rfl⟩

theorem matching_of_isTextMatch (hfields : r.comparesFields = true) {op : Operator}
    (hop : r.operator? = some op) (htext : op.isTextMatch = true) : matching = true := by
  cases h with
  | value => cases hfields
  | field field operator other hmatching =>
    obtain rfl := Option.some.inj ((Operator.ofValue?_toValue operator).symm.trans hop)
    exact hmatching htext
  | fields field operator others hseveral =>
    obtain rfl := Option.some.inj ((Operator.ofValue?_toValue operator).symm.trans hop)
    cases operator <;> simp_all [Operator.isMembership, Operator.isRange, Operator.isTextMatch]

theorem invert : (Clause.invertRule r).IsRead matching := by
  obtain ⟨op, hop⟩ := h.exists_operator
  rw [Clause.invertRule, hop]
  cases h with
  | value field operator v => exact .value field op.inverse v
  | field field operator other hmatching =>
    obtain rfl := Option.some.inj ((Operator.ofValue?_toValue operator).symm.trans hop)
    exact .field field operator.inverse other (by rwa [Operator.isTextMatch_inverse])
  | fields field operator others hseveral =>
    obtain rfl := Option.some.inj ((Operator.ofValue?_toValue operator).symm.trans hop)
    refine .fields field operator.inverse others ?_
    cases operator <;> simp_all [Operator.isMembership, Operator.isRange, Operator.inverse]

theorem finish (plan : ParsePlan) : (Clause.finishRule plan r).IsRead matching := by
  cases h with
  | value field operator v =>
    unfold Clause.finishRule
    dsimp only
    split <;> exact .value field operator _
  | field field operator other hmatching => exact .field field operator other hmatching
  | fields field operator others hseveral =>
    have hplain : Clause.readsNumbers (Rule.ofFields field operator (.list (others.map .text))) =
        false := rfl
    simp only [Clause.finishRule, Rule.ofFields] at hplain ⊢
    simp only [hplain]
    cases plan.listsAsArrays with
    | true => simpa using .fields field operator others hseveral
    | false =>
      refine .field field operator _ fun htext => ?_
      cases operator <;> simp_all [Operator.isMembership, Operator.isRange, Operator.isTextMatch]

end Rule.IsRead

/-! ### Trees -/

namespace Node

/-- A tree as readers make them, in the standard or in the interleaved shape. -/
inductive IsRead (matching : Bool) : Node → Prop where
  | rule {r : Rule} : r.IsRead matching → IsRead matching (.rule r)
  | group {j : Junction} {flags : GroupFlags} {children : List Node} :
      flags.disabled = false → (∀ child ∈ children, IsRead matching child) →
      IsRead matching (.group (.text j.name) flags children)
  | interleaved {flags : GroupFlags} {items : List Node} :
      flags.disabled = false → checkTurns items = .ok () →
      (∀ name ∈ (turnCombinators items).map combinatorName, ∃ j : Junction, name = j.name) →
      (∀ m ∈ turnMembers items, IsRead matching m) → IsRead matching (.interleaved flags items)

section
variable {matching : Bool} {t node head : Node} {flags : GroupFlags} {tail : List (String × Node)}

theorem IsRead.empty (hflags : flags.disabled = false) : IsRead matching (.interleaved flags []) :=
  .interleaved hflags rfl (by simp [turnCombinators, everySecond])
    (by simp [turnMembers, everySecond])

/-- Members with `and` and `or` between them are an interleaved group. -/
theorem IsRead.sequence (hflags : flags.disabled = false)
    (hhead : head.IsMember ∧ head.IsRead matching)
    (htail : ∀ e ∈ tail, (∃ j : Junction, e.1 = j.name) ∧ e.2.IsMember ∧ e.2.IsRead matching) :
    IsRead matching (.interleaved flags (alternate head tail)) := by
  refine .interleaved hflags ?_ ?_ ?_
  · exact checkTurns_alternate hhead.1 fun e he => (htail e he).2.1
  · rw [combinatorNames_alternate, normalized_names, List.map_map]
    refine List.forall_mem_map.mpr fun e he => ?_
    obtain ⟨⟨j, hj⟩, -⟩ := htail e he
    have hname : Text.lower (Text.trim e.1) = j.name := by
      rw [hj]
      exact combinatorName_sign j
    exact ⟨j, hname⟩
  · rw [turnMembers_alternate]
    exact List.forall_mem_cons.mpr ⟨hhead.2, List.forall_mem_map.mpr fun e he => (htail e he).2.2⟩

theorem IsRead.isTree (h : t.IsRead matching) : t.IsTree := by
  induction h with
  | rule _ => exact .rule _
  | group _ _ ih => exact .group ih
  | interleaved _ hturns _ _ ih => exact .interleaved hturns ih

/-- Both combinators have an order. -/
theorem IsRead.not_hasMixture (h : t.IsRead matching) : ¬t.HasMixture := by
  induction h with
  | rule _ => exact not_hasMixture_rule _
  | group _ _ ih =>
    intro hmixture
    cases hmixture with
    | child hmem hchild => exact ih _ hmem hchild
  | @interleaved flags items _ hturns hnames _ ih =>
    have hitems : ¬IsMixture items := by
      rintro ⟨-, -, b, hb, -, hunknown⟩
      obtain ⟨j, rfl⟩ := hnames b hb
      cases j <;> exact hunknown (by decide)
    refine not_hasMixture_interleaved hitems fun item hitem => ?_
    rcases mem_turnMembers_or hturns item hitem with hmember | ⟨name, rfl⟩
    · exact ih item hmember
    · exact not_hasMixture_bare _

theorem IsRead.of_mem_rules (h : t.IsRead matching) : ∀ r ∈ t.rules, r.IsRead matching := by
  induction h with
  | rule hr => simpa using hr
  | group _ _ ih =>
    rw [rules_group]
    exact List.forall_mem_flatMap.mpr ih
  | @interleaved flags items _ hturns _ _ ih =>
    rw [rules_interleaved]
    refine List.forall_mem_flatMap.mpr fun item hitem => ?_
    rcases mem_turnMembers_or hturns item hitem with hmember | ⟨name, rfl⟩
    · exact ih item hmember
    · simp

/-! ### Standard forms -/

/-- Members with `and` and `or` between them are joined to such a tree. -/
theorem IsRead.of_joinByPrecedence (h : joinByPrecedence head tail = .ok node)
    (hnames : ∀ e ∈ tail, ∃ j : Junction, e.1 = j.name) (hhead : head.IsRead matching)
    (htail : ∀ e ∈ tail, e.2.IsRead matching) : node.IsRead matching := by
  revert hnames hhead htail
  refine joinByPrecedence_induct (P := fun head tail node =>
    (∀ e ∈ tail, ∃ j : Junction, e.1 = j.name) → head.IsRead matching →
      (∀ e ∈ tail, e.2.IsRead matching) → node.IsRead matching) ?_ ?_ ?_ h
  · exact fun _ _ hhead _ => hhead
  · intro name head next rest _ hnames hhead htail
    obtain ⟨⟨j, rfl⟩, -⟩ := List.forall_mem_cons.mp hnames
    obtain ⟨hnext, hrest⟩ := List.forall_mem_cons.mp htail
    exact .group rfl (List.forall_mem_cons.mpr ⟨hhead, List.forall_mem_cons.mpr
      ⟨hnext, List.forall_mem_map.mpr hrest⟩⟩)
  · intro level tighter head tail rows join _ hlevel _ hcuts hrows hnames hhead htail
    obtain ⟨e, he, rfl⟩ := hlevel
    obtain ⟨j, hj⟩ := hnames e he
    rw [hj] at hcuts ⊢
    refine .group rfl (List.forall_mem_map.mpr fun row hrow => hrows row hrow ?_ ?_ ?_)
    · exact fun e he => (hcuts.forall_mem hnames row hrow e he).1
    · exact hcuts.head_of_mem hhead htail row hrow
    · exact fun e he => (hcuts.forall_mem htail row hrow e he).1

theorem IsRead.of_ofTurns (h : ofTurns flags (alternate head tail) = .ok node)
    (hflags : flags.disabled = false)
    (hnames : ∀ name ∈ (normalized tail).map (·.1), ∃ j : Junction, name = j.name)
    (hhead : head.IsRead matching) (htail : ∀ e ∈ tail, e.2.IsRead matching) :
    node.IsRead matching := by
  by_cases hne : tail = []
  · subst hne
    obtain rfl := Except.ok.inj h
    exact .group (j := .and) hflags (List.forall_mem_singleton.mpr hhead)
  · rw [ofTurns_alternate flags head hne] at h
    obtain ⟨joined, hjoined, rfl⟩ := Result.map_eq_ok h
    have hread := of_joinByPrecedence hjoined (fun e he => hnames e.1 (List.mem_map_of_mem he))
      hhead (List.forall_mem_map.mpr htail)
    obtain ⟨name, children, rfl⟩ :=
      exists_ofChildren_of_joinByPrecedence hjoined (by simpa [normalized] using hne)
    cases hread with
    | group _ hchildren => exact .group hflags hchildren

/-- The standard form of a tree that is read is one. -/
theorem IsRead.of_standardMember {result : Node} (h : standardMember node = .ok result)
    (hnode : node.IsRead matching) : result.IsRead matching := by
  revert hnode
  refine standardMember_induct
    (P := fun node result => node.IsRead matching → result.IsRead matching)
    (fun _ hr => hr) (fun _ hv => hv) ?_ ?_ ?_ h
  · intro combinator flags children results hall hgroup
    cases hgroup with
    | group hflags hchildren =>
      exact .group hflags
        (forall_mem_right hall fun child hmem _ hchild => hchild (hchildren child hmem))
  · intro flags hempty
    cases hempty with
    | interleaved hflags => exact .group (j := .and) hflags (by simp)
  · intro flags head tail head' tail' result hhead htail hresult hsequence
    cases hsequence with
    | interleaved hflags hturns hnames hmembers =>
      rw [turnMembers_alternate] at hmembers
      rw [combinatorNames_alternate, normalized_names, ← map_fst_of_forall₂ htail,
        ← normalized_names] at hnames
      obtain ⟨hfirst, hrest⟩ := List.forall_mem_cons.mp hmembers
      refine of_ofTurns hresult hflags hnames (hhead hfirst)
        (forall_mem_right htail fun e he e' hmember => ?_)
      exact hmember.2 (hrest e.2 (List.mem_map_of_mem he))

/-- **Standard forms.**  A tree that is read is written as a standard group, which is such
a tree with the same rules. -/
theorem IsRead.exists_standardRoot (h : t.IsRead matching) :
    ∃ root, t.standardRoot = .ok root ∧ root.IsStandard ∧ root.IsRead matching ∧
      root.rules = t.rules := by
  have hgroup : t.asGroup.IsRead matching := by
    cases h with
    | rule hr => exact .group (j := .and) rfl (List.forall_mem_singleton.mpr (.rule hr))
    | group hflags hchildren => exact .group hflags hchildren
    | interleaved hflags hturns hnames hmembers =>
      exact .interleaved hflags hturns hnames hmembers
  obtain ⟨root, hroot⟩ := hgroup.isTree.exists_standardMember hgroup.not_hasMixture
  have hstandard : t.standardRoot = .ok root := by
    cases h <;> exact hroot
  exact ⟨root, hstandard, hgroup.isTree.isStandard hroot, hgroup.of_standardMember hroot,
    rules_of_standardRoot hstandard⟩

/-! ### What is written -/

theorem IsRead.of_mem_combinators (h : t.IsRead matching) :
    ∀ combinator ∈ t.combinators, ∃ j : Junction, combinator = .text j.name := by
  induction h with
  | rule _ | interleaved _ _ _ _ _ => exact fun _ hmem => by cases hmem
  | @group j flags children _ _ ih =>
    rw [combinators_group]
    exact List.forall_mem_cons.mpr ⟨⟨j, rfl⟩, List.forall_mem_flatMap.mpr ih⟩

theorem mem_lineValuesOf {items : List Node} {v : Value} :
    v ∈ lineValuesOf items ↔ ∃ item ∈ items, v ∈ item.lineValues := by
  induction items with
  | nil => simp [lineValuesOf]
  | cons item items ih => simp [lineValuesOf, ih]

/-- The line of a tree has texts, and the values of the rules. -/
theorem IsRead.of_mem_lineValues (h : t.IsRead matching) {v : Value} (hv : v ∈ t.lineValues) :
    (∃ s, v = .text s) ∨ ∃ r ∈ t.rules, v = r.value := by
  induction h with
  | @rule r hr =>
    have htexts : (∃ s, r.field = .text s) ∧ ∃ s, r.operator = .text s := by
      cases hr <;> exact ⟨⟨_, rfl⟩, _, rfl⟩
    simp only [lineValues, List.mem_cons, List.not_mem_nil, or_false] at hv
    rcases hv with rfl | rfl | rfl
    · exact .inl htexts.1
    · exact .inl htexts.2
    · exact .inr ⟨r, by simp, rfl⟩
  | @group j flags children hflags hchildren ih =>
    rcases List.mem_cons.mp hv with rfl | hv
    · exact .inl ⟨_, rfl⟩
    · obtain ⟨child, hchild, hv⟩ := mem_lineValuesOf.mp hv
      rw [rules_group]
      exact (ih child hchild hv).imp_right fun ⟨r, hr, hvalue⟩ =>
        ⟨r, List.mem_flatMap.mpr ⟨child, hchild, hr⟩, hvalue⟩
  | @interleaved flags items _ hturns _ _ ih =>
    obtain ⟨item, hitem, hv⟩ := mem_lineValuesOf.mp hv
    rw [rules_interleaved]
    rcases mem_turnMembers_or hturns item hitem with hmember | ⟨name, rfl⟩
    · exact (ih item hmember hv).imp_right fun ⟨r, hr, hvalue⟩ =>
        ⟨r, List.mem_flatMap.mpr ⟨item, hitem, hr⟩, hvalue⟩
    · exact .inl ⟨name, List.mem_singleton.mp hv⟩

/-- All rules of a standard tree that is read are live. -/
theorem IsRead.rules_liveFrom (ht : t.IsStandard) (h : t.IsRead matching) (path : Path) :
    (t.liveFrom path).map Prod.snd = t.rules := by
  induction ht generalizing path with
  | rule r =>
    cases h with
    | rule hr =>
      rw [liveFrom, hr.disabled_eq, rules_rule]
      rfl
  | @group combinator flags children _ ih =>
    cases h with
    | group hflags hchildren =>
      rw [liveFrom, hflags, rules_group]
      -- the members of the group one by one, at any position
      have hmembers (position : Nat) :
          (liveMembers path position children).map Prod.snd = children.flatMap rules := by
        clear * - ih hchildren
        induction children generalizing position with
        | nil => rfl
        | cons child children ihc =>
          obtain ⟨hchild, hrest⟩ := List.forall_mem_cons.mp hchildren
          obtain ⟨ihchild, ihrest⟩ := List.forall_mem_cons.mp ih
          rw [liveMembers, List.map_append, ihchild hchild, ihc ihrest hrest, List.flatMap_cons]
      exact hmembers 0

end

/-- A tree as readers make them whose values can be written within the bound, if there is one. -/
structure IsReadWithin (bound : DigitLimit) (matching : Bool) (t : Node) : Prop where
  shape : t.IsRead matching
  short : ∀ r ∈ t.rules, ∀ digits ∈ bound, r.value.isShort digits = true

namespace IsReadWithin
variable {bound : DigitLimit} {matching : Bool} {t head : Node} {flags : GroupFlags}
  {tail : List (String × Node)}

theorem empty (hflags : flags.disabled = false) :
    IsReadWithin bound matching (.interleaved flags []) :=
  ⟨.empty hflags, by simp⟩

theorem sequence (hflags : flags.disabled = false)
    (hhead : head.IsMember ∧ head.IsReadWithin bound matching)
    (htail : ∀ e ∈ tail,
      (∃ j : Junction, e.1 = j.name) ∧ e.2.IsMember ∧ e.2.IsReadWithin bound matching) :
    IsReadWithin bound matching (.interleaved flags (alternate head tail)) := by
  refine ⟨.sequence hflags ⟨hhead.1, hhead.2.shape⟩ fun e he =>
    ⟨(htail e he).1, (htail e he).2.1, (htail e he).2.2.shape⟩, ?_⟩
  rw [rules_interleaved, rules_alternate]
  exact List.forall_mem_append.mpr
    ⟨hhead.2.short, List.forall_mem_flatMap.mpr fun e he => (htail e he).2.2.short⟩

/-- The line of such a tree can be written. -/
theorem isShort_of_mem_lineValues (h : t.IsReadWithin bound matching) {digits : Nat}
    (hdigits : digits ∈ bound) : ∀ v ∈ t.lineValues, v.isShort digits = true := by
  intro v hv
  rcases h.shape.of_mem_lineValues hv with ⟨s, rfl⟩ | ⟨r, hr, rfl⟩
  · rfl
  · exact h.short r hr digits hdigits

end IsReadWithin
end Node

/-! ### Fields -/

/-- The fields that a rule names are texts. -/
theorem Rule.IsRead.exists_text_of_mem_namedFields {matching : Bool} {r : Rule}
    (h : r.IsRead matching) {name : Value} (hname : name ∈ Clause.namedFields r) :
    ∃ s, name = .text s := by
  rcases List.mem_cons.mp hname with rfl | hname
  · exact h.exists_field
  · split at hname
    · rename_i hfields
      obtain ⟨names, hnames⟩ := h.exists_texts_of_comparesFields hfields
      rw [hnames] at hname
      obtain ⟨s, -, rfl⟩ := List.mem_map.mp hname
      exact ⟨s, rfl⟩
    · cases hname

/-- Only for a field that is not configured is a tree not accepted. -/
theorem Node.IsRead.failsOnly_checkFields {matching : Bool} {t : Node} (h : t.IsRead matching)
    (table : FieldTable) : (Clause.checkFields table t).FailsOnly fun e =>
      ∃ name path, e = .unknownField (.text name) path := by
  refine Result.ends_forM fun entry hentry => ?_
  obtain ⟨path, node⟩ := entry
  cases node with
  | rule r =>
    refine Result.ends_forM fun name hname => ?_
    have hr := h.of_mem_rules r (Node.mem_rules_of_mem_walkFrom hentry)
    obtain ⟨s, rfl⟩ := hr.exists_text_of_mem_namedFields hname
    refine Result.Ends.bind (P := fun _ => True) trivial fun field _ => ?_
    cases field with
    | some _ => trivial
    | none => exact ⟨_, _, rfl⟩
  | group _ _ _ | interleaved _ _ | bare _ => trivial

end RuleTree
