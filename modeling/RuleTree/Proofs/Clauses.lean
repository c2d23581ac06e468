import RuleTree.Proofs.Outputs
import RuleTree.Proofs.Translation

/-! # Clauses of what is read

What is written of a tree that is read holds what is written of its rules, side by side
and in the order of the rules (`Value.Holds`).  Only a rule that takes several values and
has none to take has no clause (`Dialect.skips`), so a condition of a source is lost on the
way back exactly if its list has no item in it or its range lacks a bound
(`Query.clauses_of_parse`, `Query.clauses_of_parse_skipped`).
-/
namespace RuleTree

/-! ### Parts of an output -/

/-- A value holds others in disjoint places, from left to right: a text as stretches of
it, a list and a map with one entry as parts of what is in them. -/
inductive Value.Holds : Value → List Value → Prop where
  | nothing (v : Value) : Holds v []
  | itself (v : Value) : Holds v [v]
  | beside {s t : String} {cs ds : List Value} :
      Holds (.text s) cs → Holds (.text t) ds → Holds (.text (s ++ t)) (cs ++ ds)
  | items {items : List Value} {css : List (List Value)} :
      List.Forall₂ Holds items css → Holds (.list items) css.flatten
  | entry {v : Value} {cs : List Value} (key : String) : Holds v cs → Holds (.map [(key, v)]) cs

namespace Value

theorem Holds.after {s : String} {cs : List Value} (h : Holds (.text s) cs) (before : String) :
    Holds (.text (before ++ s)) cs :=
  .beside (.nothing (.text before)) h

theorem Holds.before {s : String} {cs : List Value} (h : Holds (.text s) cs) (after : String) :
    Holds (.text (s ++ after)) cs := by
  have hboth : Holds (.text (s ++ after)) (cs ++ []) := .beside h (.nothing (.text after))
  rwa [List.append_nil] at hboth

/-- Joined texts hold what they do one after another. -/
theorem holds_joinWith (separator : String) {ss : List String} {css : List (List Value)}
    (h : List.Forall₂ Holds (ss.map .text) css) :
    Holds (.text (Text.joinWith separator ss)) css.flatten := by
  induction ss generalizing css with
  | nil =>
    obtain rfl := List.forall₂_nil_left_iff.mp h
    exact .nothing _
  | cons s ss ih =>
    obtain ⟨cs, css, hfirst, hrest, rfl⟩ := List.forall₂_cons_left_iff.mp h
    cases ss with
    | nil =>
      obtain rfl := List.forall₂_nil_left_iff.mp hrest
      rw [List.flatten_singleton]
      exact hfirst
    | cons t ss => exact .beside (hfirst.before separator) (ih hrest)

/-- Values are joined as texts only if they are texts. -/
theorem texts_eq_ok {vs : List Value} {ss : List String} (h : texts vs = .ok ss) :
    vs = ss.map .text := by
  induction vs generalizing ss with
  | nil =>
    cases h
    rfl
  | cons v vs ih =>
    cases v with
    | text s =>
      obtain ⟨rest, hrest, h⟩ := Result.bind_eq_ok h
      obtain rfl := Except.ok.inj h
      rw [ih hrest, List.map_cons]
    | _ => cases h

end Value

/-- Texts that are joined are nothing only if the first one is. -/
theorem Text.joinWith_cons_ne_empty (separator : String) {s : String} (hs : s ≠ "")
    (ss : List String) : Text.joinWith separator (s :: ss) ≠ "" := by
  cases ss with
  | nil => exact hs
  | cons t ss =>
    rw [joinWith_cons_cons]
    simp [hs]

/-! ### Writers -/

namespace Query

/-- What a dialect whose outputs are values writes of a rule with default options; none
where it writes nothing. -/
def clause? (d : Dialect) (r : Rule) : Option Value :=
  match writeRule d (.usual d) r none with
  | .ok (.value clause) => if clause.isNothing then none else some clause
  | _ => none

end Query

namespace Writer

/-- A writer of a dialect that writes each rule on its own, and joins outputs to one that
holds what they do. -/
structure Encloses (w : Writer Value) (d : Dialect) (clause : Rule → Result Value) : Prop where
  dialect : w.dialect = d
  writeRule (r : Rule) : Query.writeRule d (.usual d) r none = (clause r).map .value
  write (r : Rule) (context : Option RuleContext) (s : Bindings) :
    w.write (.usual d) r context s = (clause r).map fun out => (out, s)
  isEmpty {r : Rule} {out : Value} : clause r = .ok out → w.isEmpty out = out.isNothing
  combine {outs : List Value} {css : List (List Value)} {combinator : Value}
    {negated isRoot : Bool} {out : Value} : List.Forall₂ Value.Holds outs css → outs ≠ [] →
      (∀ out ∈ outs, w.isEmpty out = false) →
      w.combine combinator negated isRoot outs = .ok out →
        w.isEmpty out = false ∧ out.Holds css.flatten

namespace Encloses
variable {w : Writer Value} {d : Dialect} {clause : Rule → Result Value}
  (h : w.Encloses d clause) (hd : d ≠ .qdrant)
include h hd

/-- The outputs of such a writer say what clauses there are. -/
theorem speaks : w.Speaks (.usual d) (fun out cs => w.isEmpty out = false ∧ out.Holds cs)
    (fun r => (Query.clause? d r).map ([·])) (fun _ _ => List.flatten) where
  rule {r path s s' out} hwrite := by
    have hplan := FormatPlan.isUsual_usual hd
    cases hop : r.operator? with
    | none =>
      rw [w.writeRule_apply hplan.ruleHook, canExpress_of_none hop] at hwrite
      cases hwrite
    | some op =>
      rw [writeRule_of_isUsual (h.dialect ▸ hd) hplan hop, h.write] at hwrite
      obtain ⟨clause', hclause, hpair⟩ := Result.map_eq_ok hwrite
      obtain ⟨rfl, rfl⟩ := Prod.mk.inj hpair
      rw [Query.clause?, h.writeRule, hclause, h.isEmpty hclause]
      cases hempty : clause'.isNothing with
      | true => exact .inl ⟨rfl, by simp [Except.map, hempty]⟩
      | false =>
        refine .inr ⟨rfl, [clause'], by simp [Except.map, hempty], rfl, .itself _⟩
  join {outs css combinator negated isRoot out} hspoken hne hcombine := by
    have hkept : ∀ out ∈ outs, w.isEmpty out = false := by
      clear hne hcombine
      induction hspoken with
      | nil => simp
      | cons hsay _ ih => exact List.forall_mem_cons.mpr ⟨hsay.1, ih⟩
    obtain ⟨hempty, hholds⟩ := h.combine (hspoken.imp fun _ _ hsay => hsay.2) hne hkept hcombine
    exact ⟨hempty, hempty, hholds⟩

end Encloses
end Writer

/-- What is said in a tree in which rules say one thing or nothing is what its live rules
say, in order. -/
theorem Node.said_flatten {β : Type} (f : Rule → Option β) {t : Node} (ht : t.IsStandard)
    (path : Path) :
    (t.said (fun r => (f r).map ([·])) fun _ _ => List.flatten).getD [] =
      (t.liveFrom path).filterMap fun e => f e.2 := by
  induction ht generalizing path with
  | rule r =>
    rw [said, liveFrom]
    cases r.disabled with
    | true => rfl
    | false => cases hf : f r <;> simp [hf]
  | @group combinator flags children hchildren ih =>
    rw [said_group, liveFrom]
    cases flags.disabled with
    | true => rfl
    | false =>
      have hmembers (position : Nat) :
          (children.filterMap (said (fun r => (f r).map ([·])) fun _ _ => List.flatten)).flatten =
            (liveMembers path position children).filterMap fun e => f e.2 := by
        induction children generalizing position with
        | nil => rfl
        | cons child children ihc =>
          obtain ⟨hchild, hrest⟩ := List.forall_mem_cons.mp ih
          have hothers := ihc (List.forall_mem_cons.mp hchildren).2 hrest
          rw [liveMembers, List.filterMap_append, ← hchild, ← hothers, List.filterMap_cons]
          cases said (fun r => (f r).map ([·])) (fun _ _ => List.flatten) child <;> rfl
      rw [if_neg Bool.false_ne_true, if_neg Bool.false_ne_true, ← hmembers 0]
      split
      · rename_i hnone
        rw [hnone]
        rfl
      · rfl

/-- **Clauses.**  What is written of a tree that is read holds the clauses of its rules, in
their order. -/
theorem Writer.Encloses.holds_of_run {w : Writer Value} {d : Dialect}
    {clause : Rule → Result Value} (h : w.Encloses d clause) (hd : d ≠ .qdrant) {matching : Bool}
    {t : Node} (ht : t.IsRead matching) {output : Option Value} {bindings : Bindings}
    (hrun : w.run (.usual d) t = .ok (output, bindings)) (usual : Value) :
    (output.getD usual).Holds (t.rules.filterMap (Query.clause? d)) := by
  obtain ⟨root, hroot, hstandard, hread, hrules⟩ := ht.exists_standardRoot
  rw [w.run_of_not_validate _ rfl, hroot, Result.ok_bind] at hrun
  have hsaid := (h.speaks hd).writeNode hrun
  have hclauses : root.rules.filterMap (Query.clause? d) =
      (root.liveFrom []).filterMap fun e => Query.clause? d e.2 := by
    rw [← hread.rules_liveFrom hstandard [], List.filterMap_map]
    rfl
  rw [← hrules, hclauses, ← Node.said_flatten _ hstandard]
  generalize root.said _ _ = said at hsaid
  cases hsaid with
  | none => exact .nothing _
  | some hsay => exact hsay.2

/-! ### Rules without operands -/

/-- Whether a dialect leaves a rule out: one that takes several values and has none to
take.  Documents alone list other fields even where there are none. -/
def Dialect.skips (d : Dialect) (r : Rule) : Bool :=
  r.operator?.any fun op =>
    op.isMembership && r.value.toItems.isEmpty && !(d == .mongodb && r.comparesFields) ||
      op.isRange && r.value.bounds?.isNone

/-- What is written of a rule is nothing where it is left out, and a map otherwise. -/
def Dialect.HasEntry (d : Dialect) (r : Rule) (nothing out : Value) : Prop :=
  (out = nothing ∧ d.skips r = true) ∨ (∃ e, out = .map [e]) ∧ ¬d.skips r = true

theorem Operator.isRange_of_isMembership {op : Operator} (h : op.isMembership = true) :
    op.isRange = false := by
  cases op <;> first | rfl | cases h

namespace Dialect
variable {d : Dialect} {r : Rule} {op : Operator} (hop : r.operator? = some op)
include hop

theorem skips_of_isMembership (hmember : op.isMembership = true)
    (hlist : d = .mongodb → r.comparesFields = false) :
    d.skips r = true ↔ r.value.toItems = [] := by
  have hfields : (d == .mongodb && r.comparesFields) = false := by
    rw [Bool.and_eq_false_imp]
    exact fun hd => hlist (by simpa using hd)
  rw [skips, hop, Option.any_some, hmember, Operator.isRange_of_isMembership hmember, hfields]
  simp

theorem skips_of_isRange (hrange : op.isRange = true) :
    d.skips r = true ↔ r.value.bounds? = none := by
  rw [skips, hop, Option.any_some, hrange, (Operator.of_isRange hrange).2.1]
  simp

/-- Rules of any other kind are not left out. -/
theorem not_skips (hmember : op.isMembership = false) (hrange : op.isRange = false) :
    ¬d.skips r = true := by
  rw [skips, hop, Option.any_some, hmember, hrange]
  simp

end Dialect

namespace Text

/-- Blanks alone are dropped. -/
theorem mem_dropWhile_isBlank {c : Char} {cs : List Char} (hc : c ∈ cs)
    (hblank : isBlank c = false) : c ∈ cs.dropWhile isBlank := by
  rw [← List.takeWhile_append_dropWhile (p := isBlank) (l := cs)] at hc
  refine (List.mem_append.mp hc).resolve_left fun htaken => ?_
  rw [List.mem_takeWhile_imp htaken] at hblank
  cases hblank

/-- A text with something but blanks in it does not vanish with its outer blanks. -/
theorem trim_ne_empty {s : String} (h : ∃ c ∈ s.toList, isBlank c = false) : trim s ≠ "" := by
  obtain ⟨c, hc, hblank⟩ := h
  have hstart : c ∈ (trimStart s.toList).reverse :=
    List.mem_reverse.mpr (mem_dropWhile_isBlank hc hblank)
  have hmem : c ∈ trimBoth s.toList := List.mem_reverse.mpr (mem_dropWhile_isBlank hstart hblank)
  intro hnone
  have hlist : trimBoth s.toList = [] := by
    simpa [trim] using hnone
  rw [hlist] at hmem
  cases hmem

end Text

namespace Sql
variable {r : Rule} {op : Operator} (hop : r.operator? = some op)
include hop

/-- The items of a list are a text, unless there are none. -/
theorem ends_valueText_of_isMembership (style : Style) (hmember : op.isMembership = true) :
    (valueText r style).Ends (fun _ => False) fun s => s = "" ↔ r.value.toItems = [] := by
  obtain ⟨hnull, -⟩ := Operator.of_isMembership hmember
  have hlist (names : List String) : "(" ++ Text.joinWith ", " names ++ ")" ≠ "" := by simp
  unfold valueText otherFields
  simp only [hop, hnull, hmember, if_true, Bool.false_eq_true, if_false]
  cases r.value.toItems with
  | nil => split <;> exact Result.ends_ok (iff_of_true rfl rfl)
  | cons item items =>
    split <;> exact Result.ends_ok (iff_of_false (hlist _) (List.cons_ne_nil _ _))

/-- The bounds of a range are a text, unless one is missing. -/
theorem ends_valueText_of_isRange (style : Style) (hrange : op.isRange = true) :
    (valueText r style).Ends (fun _ => False) fun s => s = "" ↔ r.value.bounds? = none := by
  obtain ⟨hnull, hmember, -⟩ := Operator.of_isRange hrange
  have hbounds (low high : String) : low ++ " and " ++ high ≠ "" := by simp
  unfold valueText otherFields
  simp only [hop, hnull, hmember, hrange, if_true, Bool.false_eq_true, if_false]
  cases r.value.bounds? with
  | none => split <;> exact Result.ends_ok (iff_of_true rfl rfl)
  | some bounds => split <;> exact Result.ends_ok (iff_of_false (hbounds _ _) nofun)

/-- The value of a rule is a text, which is empty for one that takes several values and has
none. -/
theorem ends_ruleValue : (ruleValue (.usual .sql) r).Ends (fun _ => False) fun value =>
    ∃ s, value = .text s ∧ ((op.isMembership || op.isRange) = true →
      (s = "" ↔ Dialect.sql.skips r = true)) := by
  have hconcat : ({} : Style).concat.requireText.FailsOnly fun _ => False := trivial
  by_cases hmember : op.isMembership = true
  · refine (ends_valueText_of_isMembership hop _ hmember).map fun s hs => ⟨s, rfl, fun _ => ?_⟩
    rw [Dialect.skips_of_isMembership (d := .sql) hop hmember nofun]
    exact hs
  by_cases hrange : op.isRange = true
  · refine (ends_valueText_of_isRange hop _ hrange).map fun s hs => ⟨s, rfl, fun _ => ?_⟩
    rw [Dialect.skips_of_isRange hop hrange]
    exact hs
  · exact (failsOnly_valueText hconcat r).map fun s _ => ⟨s, rfl, by simp [hmember, hrange]⟩

/-- A condition is empty only where a rule is left out. -/
theorem ends_plainRule_skips : (plainRule (.usual .sql) r).Ends (fun _ => False) fun s =>
    s = "" ↔ Dialect.sql.skips r = true := by
  have hcondition (field value : String) :
      Text.trim (field ++ " " ++ Dialect.sqlSpelling op ++ " " ++ value) ≠ "" := by
    obtain ⟨c, hc, hblank⟩ := sqlSpelling_not_blank op
    exact Text.trim_ne_empty ⟨c, by simp [hc], hblank⟩
  have hsingle (hmulti : (op.isMembership || op.isRange) = false) :
      ¬Dialect.sql.skips r = true := by
    obtain ⟨hmember, hrange⟩ := Bool.or_eq_false_iff.mp hmulti
    exact Dialect.not_skips hop hmember hrange
  rw [plainRule, Rule.resolve_of_operator? hop, Result.ok_bind]
  dsimp only
  split
  · rename_i hnull
    have hmulti : (op.isMembership || op.isRange) = false := by
      cases op <;> first | rfl | cases hnull
    exact Result.ends_ok (iff_of_false (by simp) (hsingle hmulti))
  · refine (ends_ruleValue hop).bind fun value hvalue => ?_
    obtain ⟨s, rfl, hs⟩ := hvalue
    cases hmulti : op.isMembership || op.isRange with
    | false => exact Result.ends_ok (iff_of_false (hcondition _ _) (hsingle hmulti))
    | true =>
      by_cases hnone : s = ""
      · subst hnone
        exact Result.ends_ok (iff_of_true rfl ((hs hmulti).mp rfl))
      · have htruthy : (Value.text s).truthy = true := by simp [Value.truthy, hnone]
        rw [htruthy]
        exact Result.ends_ok
          (iff_of_false (hcondition _ _) fun hskip => hnone ((hs hmulti).mpr hskip))

end Sql

section
variable {r : Rule} {op : Operator} (hop : r.operator? = some op)
include hop

/-- An expression is empty only where a rule is left out, if no membership is empty. -/
theorem Language.ends_writeRule_skips {l : Language} (hl : l.dialect ≠ .qdrant)
    (hmongodb : l.dialect ≠ .mongodb)
    (hmembership : ∀ field items negated, l.membership field items negated ≠ "") :
    (l.writeRule (.usual l.dialect) r).Ends (fun _ => False) fun s =>
      s = "" ↔ l.dialect.skips r = true := by
  obtain ⟨spelling, hspelling⟩ := op.exists_spellIn hl
  have hcomparisons (field low high : String) : l.range field op low high ≠ "" := by
    unfold range
    split <;> simp
  have happlication (field value : String) : application op field spelling value ≠ "" := by
    unfold application
    split <;> simp
  rw [writeRule, ruleOperator, hop, Result.ok_bind, hspelling, Result.ok_bind]
  dsimp only
  split
  · rename_i hnull
    subst hnull
    exact Result.ends_ok (iff_of_false (by simp) (Dialect.not_skips hop rfl rfl))
  split
  · rename_i hnotNull
    subst hnotNull
    exact Result.ends_ok (iff_of_false (by simp) (Dialect.not_skips hop rfl rfl))
  rw [FormatPlan.suppliedValue_of_absent rfl]
  refine Result.ends_ok ?_
  unfold ownRule
  split
  · rename_i hmember
    rw [Dialect.skips_of_isMembership hop hmember fun hd => absurd hd hmongodb]
    cases r.value.toItems <;> simp [hmembership]
  split
  · rename_i hrange
    rw [Dialect.skips_of_isRange hop hrange]
    cases r.value.bounds? <;> simp [hcomparisons]
  · rename_i hmember hrange
    exact iff_of_false (happlication _ _)
      (Dialect.not_skips hop (by simpa using hmember) (by simpa using hrange))

/-- What a rule is in JsonLogic is null where it is left out, and an operation otherwise. -/
theorem JsonLogic.ends_writeRule_skips :
    (writeRule (.usual .jsonlogic) r).Ends (fun _ => False)
      (Dialect.jsonlogic.HasEntry r .null) := by
  have hown (style : Style) : (ownRule style op r = none ∧ Dialect.jsonlogic.skips r = true) ∨
      (∃ e, ownRule style op r = some (.map [e])) ∧ ¬Dialect.jsonlogic.skips r = true := by
    have happlication (field v : Value) : ∃ e, application op field v = .map [e] := by
      unfold application
      split <;> exact ⟨_, rfl⟩
    unfold ownRule
    split
    · rename_i hnull
      refine .inr ⟨⟨_, rfl⟩, ?_⟩
      cases op <;> first | exact Dialect.not_skips hop rfl rfl | cases hnull
    split
    · rename_i hmember
      rw [Dialect.skips_of_isMembership (d := .jsonlogic) hop hmember nofun]
      cases r.value.toItems <;> simp [operation]
    split
    · rename_i hrange
      rw [Dialect.skips_of_isRange hop hrange]
      cases r.value.bounds? <;> simp [operation]
    · rename_i hmember hrange
      obtain ⟨e, he⟩ := happlication r.field (singleValue style op r)
      exact .inr ⟨⟨e, by rw [he]⟩,
        Dialect.not_skips hop (by simpa using hmember) (by simpa using hrange)⟩
  rw [writeRule, Language.ruleOperator, hop, Result.ok_bind,
    FormatPlan.suppliedValue_of_absent rfl]
  refine Result.ends_ok ?_
  rcases hown (FormatPlan.usual .jsonlogic).style with ⟨hnone, hskip⟩ | ⟨⟨e, hsome⟩, hskip⟩
  · rw [hnone]
    exact .inl ⟨rfl, hskip⟩
  · rw [hsome]
    refine .inr ⟨?_, hskip⟩
    dsimp only
    split <;> exact ⟨_, rfl⟩

namespace Mongo

/-- A rule between fields is left out as a range without bounds, unless it matches texts. -/
theorem ends_fieldComparison_skips (hfields : r.comparesFields = true) :
    (fieldComparison op r).Ends (fun _ => r.matchesField = true)
      (Dialect.mongodb.HasEntry r (.map [])) := by
  unfold fieldComparison Dialect.HasEntry
  dsimp only
  split
  · rename_i hmember
    have hlist : ¬Dialect.mongodb.skips r = true := by
      rw [Dialect.skips, hop, Option.any_some, hfields, Operator.isRange_of_isMembership hmember]
      simp
    exact Result.ends_ok (.inr ⟨⟨_, rfl⟩, hlist⟩)
  split
  · rename_i hrange
    simp only [Dialect.skips_of_isRange hop hrange]
    cases r.value.bounds? with
    | none => exact Result.ends_ok (.inl ⟨rfl, rfl⟩)
    | some bounds => exact Result.ends_ok (.inr ⟨⟨_, rfl⟩, nofun⟩)
  split
  · rename_i htext
    exact Result.ends_error (Rule.matchesField_iff.mpr ⟨hfields, op, hop, htext⟩)
  · rename_i hmember hrange _
    exact Result.ends_ok (.inr ⟨⟨_, rfl⟩,
      Dialect.not_skips hop (by simpa using hmember) (by simpa using hrange)⟩)

/-- A rule on values has a condition unless it is left out. -/
theorem ends_condition?_skips (hfields : r.comparesFields = false) :
    (condition? (.usual .mongodb) op r).Ends (fun _ => False) fun document? =>
      (document? = none ∧ Dialect.mongodb.skips r = true) ∨
        (∃ document, document? = some document ∧ ∀ field, ∃ e, document field = .map [e]) ∧
          ¬Dialect.mongodb.skips r = true := by
  unfold condition?
  split
  · rename_i hnull
    subst hnull
    exact Result.ends_ok (.inr ⟨⟨_, rfl, fun _ => ⟨_, rfl⟩⟩, Dialect.not_skips hop rfl rfl⟩)
  split
  · rename_i hnotNull
    subst hnotNull
    exact Result.ends_ok (.inr ⟨⟨_, rfl, fun _ => ⟨_, rfl⟩⟩, Dialect.not_skips hop rfl rfl⟩)
  rw [FormatPlan.suppliedValue_of_absent rfl]
  refine Result.ends_ok ?_
  unfold ownRule
  split
  · rename_i hmember
    rw [Dialect.skips_of_isMembership hop hmember fun _ => hfields]
    cases r.value.toItems with
    | nil => exact .inl ⟨rfl, rfl⟩
    | cons item items => exact .inr ⟨⟨_, rfl, fun _ => ⟨_, rfl⟩⟩, nofun⟩
  split
  · rename_i hrange
    rw [Dialect.skips_of_isRange hop hrange]
    cases r.value.bounds? with
    | none => exact .inl ⟨rfl, rfl⟩
    | some bounds =>
      refine .inr ⟨⟨_, rfl, fun field => ?_⟩, nofun⟩
      unfold range
      split <;> exact ⟨_, rfl⟩
  · rename_i hmember hrange
    refine .inr ⟨?_, Dialect.not_skips hop (by simpa using hmember) (by simpa using hrange)⟩
    split <;> exact ⟨_, rfl, fun _ => ⟨_, rfl⟩⟩

/-- The document of a rule is empty where it is left out, and has one entry otherwise. -/
theorem ends_writeRule_skips {name : String} (hkey : r.field = .text name) :
    (writeRule (.usual .mongodb) r).Ends (fun _ => r.matchesField = true)
      (Dialect.mongodb.HasEntry r (.map [])) := by
  have hfield : fieldKey r.field = .ok name := by
    rw [hkey]
    rfl
  rw [writeRule, Language.ruleOperator, hop, Result.ok_bind]
  cases hfields : r.comparesFields with
  | true => exact ends_fieldComparison_skips hop hfields
  | false =>
    rw [if_neg Bool.false_ne_true]
    refine ((ends_condition?_skips hop hfields).mono (fun _ he => he.elim) fun _ h => h).bind
      fun document? hdocument => ?_
    rcases hdocument with ⟨rfl, hskip⟩ | ⟨⟨document, rfl, hentry⟩, hskip⟩
    · exact Result.ends_ok (.inl ⟨rfl, hskip⟩)
    · dsimp only
      rw [hfield]
      exact Result.ends_ok (.inr ⟨hentry name, hskip⟩)

end Mongo

end

/-! ### Dialects -/

section
variable {outs : List Value} {css : List (List Value)} {combinator : Value} {negated : Bool}
  {out : Value} (hholds : List.Forall₂ Value.Holds outs css)
include hholds

theorem Sql.joinGroup_holds (h : joinGroup combinator negated outs = .ok out) :
    out.isNothing = false ∧ out.Holds css.flatten := by
  obtain ⟨ss, hss, h⟩ := Result.bind_eq_ok h
  obtain rfl := Except.ok.inj h
  obtain rfl := Value.texts_eq_ok hss
  exact ⟨by simp [Value.isNothing], ((Value.holds_joinWith _ hholds).after _).before _⟩

theorem Language.joinGroup_holds (l : Language) {isRoot : Bool} (hne : outs ≠ [])
    (hkept : ∀ out ∈ outs, out.isNothing = false)
    (h : l.joinGroup combinator negated isRoot outs = .ok out) :
    out.isNothing = false ∧ out.Holds css.flatten := by
  obtain ⟨connective, -, h⟩ := Result.bind_eq_ok h
  obtain ⟨ss, hss, h⟩ := Result.bind_eq_ok h
  obtain rfl := Except.ok.inj h
  obtain rfl := Value.texts_eq_ok hss
  have hjoined := Value.holds_joinWith (" " ++ connective ++ " ") hholds
  have hsome : Text.joinWith (" " ++ connective ++ " ") ss ≠ "" := by
    cases ss with
    | nil => exact absurd rfl hne
    | cons s ss =>
      refine Text.joinWith_cons_ne_empty _ (fun hs => ?_) ss
      have hfirst := hkept (.text s) List.mem_cons_self
      rw [hs] at hfirst
      cases hfirst
  -- the root stands as it is, any other group in parentheses
  cases negated with
  | true => exact ⟨by simp [Value.isNothing], (hjoined.after _).before _⟩
  | false =>
    cases isRoot with
    | true => exact ⟨by simpa [Value.isNothing] using hsome, hjoined⟩
    | false => exact ⟨by simp [Value.isNothing], (hjoined.after _).before _⟩

theorem Mongo.joinGroup_holds (h : joinGroup combinator negated outs = .ok out) :
    (∃ e, out = .map [e]) ∧ out.Holds css.flatten := by
  obtain ⟨key, -, h⟩ := Result.bind_eq_ok h
  obtain rfl := Except.ok.inj h
  have hjoined : (entry key (.list outs)).Holds css.flatten := .entry _ (.items hholds)
  cases negated with
  | false => exact ⟨⟨_, rfl⟩, hjoined⟩
  | true =>
    have hnegated : (entry "$nor" (.list [entry key (.list outs)])).Holds [css.flatten].flatten :=
      .entry _ (.items (.cons hjoined .nil))
    rw [List.flatten_singleton] at hnegated
    exact ⟨⟨_, rfl⟩, hnegated⟩

theorem JsonLogic.joinGroup_holds (h : joinGroup combinator negated outs = .ok out) :
    (∃ e, out = .map [e]) ∧ out.Holds css.flatten := by
  obtain ⟨name, -, h⟩ := Result.bind_eq_ok h
  dsimp only at h
  split at h
  · obtain rfl := Except.ok.inj h
    have hjoined : (operation (Text.lower name) outs).Holds css.flatten := .entry _ (.items hholds)
    cases negated with
    | false => exact ⟨⟨_, rfl⟩, hjoined⟩
    | true => exact ⟨⟨_, rfl⟩, .entry _ hjoined⟩
  · cases h

end

theorem Sql.plainWriter_encloses :
    plainWriter.Encloses .sql fun r => (plainRule (.usual .sql) r).map .text where
  dialect := rfl
  writeRule r := by
    show (plainRule (.usual .sql) r).map _ = _
    cases plainRule (.usual .sql) r <;> rfl
  write r context s := by
    show ((liftM (plainRule (.usual .sql) r) : Write String) >>= _) s = _
    cases plainRule (.usual .sql) r <;> rfl
  isEmpty _ := rfl
  combine hholds _ _ h := joinGroup_holds hholds h

theorem Language.writer_encloses {l : Language}
    (hrule : ∀ r, Query.writeRule l.dialect (.usual l.dialect) r none =
      (l.writeRule (.usual l.dialect) r).map fun s => .value (.text s)) :
    l.writer.Encloses l.dialect fun r => (l.writeRule (.usual l.dialect) r).map .text where
  dialect := rfl
  writeRule r := by
    rw [hrule]
    cases l.writeRule (.usual l.dialect) r <;> rfl
  write r context s := by
    show ((liftM (l.writeRule (.usual l.dialect) r) : Write String) >>= _) s = _
    cases l.writeRule (.usual l.dialect) r <;> rfl
  isEmpty _ := rfl
  combine hholds hne hkept h := l.joinGroup_holds hholds hne hkept h

theorem Mongo.writer_encloses : writer.Encloses .mongodb (writeRule (.usual .mongodb)) where
  dialect := rfl
  writeRule r := rfl
  write r context s := by
    show (liftM (Mongo.writeRule (.usual .mongodb) r) : Write Value) s = _
    cases Mongo.writeRule (.usual .mongodb) r <;> rfl
  isEmpty _ := rfl
  combine hholds _ _ h := by
    obtain ⟨⟨e, rfl⟩, hparts⟩ := joinGroup_holds hholds h
    exact ⟨rfl, hparts⟩

theorem JsonLogic.writer_encloses : writer.Encloses .jsonlogic (writeRule (.usual .jsonlogic)) where
  dialect := rfl
  writeRule r := rfl
  write r context s := by
    show (liftM (JsonLogic.writeRule (.usual .jsonlogic) r) : Write Value) s = _
    cases JsonLogic.writeRule (.usual .jsonlogic) r <;> rfl
  isEmpty {r out} h := by
    cases hop : r.operator? with
    | none =>
      rw [JsonLogic.writeRule, Language.ruleOperator, hop] at h
      cases h
    | some op =>
      rcases (ends_writeRule_skips hop).of_eq_ok h with ⟨rfl, -⟩ | ⟨⟨e, rfl⟩, -⟩ <;> rfl
  combine hholds _ _ h := by
    obtain ⟨⟨e, rfl⟩, hparts⟩ := joinGroup_holds hholds h
    exact ⟨rfl, hparts⟩

/-! ### Queries -/

theorem Dialect.HasEntry.isNothing_iff {d : Dialect} {r : Rule} {nothing out : Value}
    (h : d.HasEntry r nothing out) (hnothing : nothing.isNothing = true) :
    out.isNothing = true ↔ d.skips r = true := by
  rcases h with ⟨rfl, hskip⟩ | ⟨⟨e, rfl⟩, hskip⟩
  · exact iff_of_true hnothing hskip
  · exact iff_of_false nofun hskip

namespace Query

/-- What a dialect writes of each rule of a tree by default, and what it makes of them:
nothing of a rule that it leaves out, and a value that holds the others side by side. -/
def KeepsClauses (d : Dialect) (t : Node) : Prop :=
  (∀ r ∈ t.rules, ∃ clause, writeRule d (.usual d) r none = .ok (.value clause) ∧
    (clause.isNothing = true ↔ d.skips r = true)) ∧
  ∃ v, format { format := .text d.name } t = .ok (.value v) ∧
    v.Holds (t.rules.filterMap (clause? d))

theorem keepsClauses_of_encloses {d : Dialect} {w : Writer Value} {clause : Rule → Result Value}
    (h : w.Encloses d clause) (hd : d ≠ .qdrant) {matching : Bool} {t : Node}
    (ht : t.IsRead matching)
    (hclause : ∀ r ∈ t.rules, ∃ out, clause r = .ok out ∧
      (out.isNothing = true ↔ d.skips r = true)) (usual : Value)
    (hwrite : write d (.usual d) t =
      (w.run (.usual d) t).map fun output => .value (output.1.getD usual))
    (hformat : ∃ output, format { format := .text d.name } t = .ok output) : KeepsClauses d t := by
  refine ⟨fun r hr => ?_, ?_⟩
  · obtain ⟨out, hout, hempty⟩ := hclause r hr
    refine ⟨out, ?_, hempty⟩
    rw [h.writeRule, hout]
    rfl
  · obtain ⟨output, hformat⟩ := hformat
    have hrun := hformat
    rw [format_eq_write (FormatOptions.resolve_name d) rfl ht.isTree, hwrite] at hrun
    obtain ⟨⟨root?, bindings⟩, hroot, rfl⟩ := Result.map_eq_ok hrun
    exact ⟨_, hformat, h.holds_of_run hd ht hroot usual⟩

section
variable {matching : Bool} {t : Node} (ht : t.IsRead matching)
include ht

theorem keepsClauses_sql : KeepsClauses .sql t := by
  refine keepsClauses_of_encloses Sql.plainWriter_encloses nofun ht (fun r hr => ?_)
    (.text Sql.always) ?_ (exists_format ht nofun nofun)
  · obtain ⟨op, hop⟩ := (ht.of_mem_rules r hr).exists_operator
    obtain ⟨s, hs, hempty⟩ := (Sql.ends_plainRule_skips hop).exists_eq_ok
    exact ⟨.text s, by rw [hs]; rfl, by simpa [Value.isNothing] using hempty⟩
  · rw [write, Sql.plain, Writer.within_none]
    cases Sql.plainWriter.run (.usual .sql) t <;> rfl

theorem keepsClauses_language {l : Language} (hqdrant : l.dialect ≠ .qdrant)
    (hmongodb : l.dialect ≠ .mongodb)
    (hmembership : ∀ field items negated, l.membership field items negated ≠ "")
    (hrule : ∀ r, writeRule l.dialect (.usual l.dialect) r none =
      (l.writeRule (.usual l.dialect) r).map fun s => .value (.text s))
    (hwrite : write l.dialect (.usual l.dialect) t =
      (l.format (.usual l.dialect) t).map .value) : KeepsClauses l.dialect t := by
  refine keepsClauses_of_encloses (Language.writer_encloses hrule) hqdrant ht (fun r hr => ?_)
    (.text Language.always) ?_ (exists_format ht hqdrant hmongodb)
  · obtain ⟨op, hop⟩ := (ht.of_mem_rules r hr).exists_operator
    obtain ⟨s, hs, hempty⟩ :=
      (Language.ends_writeRule_skips hop hqdrant hmongodb hmembership).exists_eq_ok
    exact ⟨.text s, by rw [hs]; rfl, by simpa [Value.isNothing] using hempty⟩
  · rw [hwrite, Language.format, Writer.within_none]
    cases l.writer.run (.usual l.dialect) t <;> rfl

theorem keepsClauses_jsonlogic : KeepsClauses .jsonlogic t := by
  refine keepsClauses_of_encloses JsonLogic.writer_encloses nofun ht (fun r hr => ?_)
    (.bool false) ?_ (exists_format ht nofun nofun)
  · obtain ⟨op, hop⟩ := (ht.of_mem_rules r hr).exists_operator
    obtain ⟨out, hout, hentry⟩ := (JsonLogic.ends_writeRule_skips hop).exists_eq_ok
    exact ⟨out, hout, hentry.isNothing_iff rfl⟩
  · rw [write, JsonLogic.format, Writer.within_none]
    cases JsonLogic.writer.run (.usual .jsonlogic) t <;> rfl

/-- A document has the clauses of a tree in which no field is matched against another. -/
theorem keepsClauses_mongodb (hmatch : ∀ r ∈ t.rules, r.matchesField = false) :
    KeepsClauses .mongodb t := by
  have hformat : ∃ output, format { format := .text Dialect.mongodb.name } t = .ok output := by
    rcases format_mongodb ht with ⟨v, -, hv⟩ | ⟨r, hr, -, ⟨hfields, -⟩, -⟩
    · exact ⟨_, hv⟩
    · rw [hmatch r hr] at hfields
      cases hfields
  refine keepsClauses_of_encloses Mongo.writer_encloses nofun ht (fun r hr => ?_) Mongo.always ?_
    hformat
  · obtain ⟨op, hop⟩ := (ht.of_mem_rules r hr).exists_operator
    obtain ⟨name, hname⟩ := (ht.of_mem_rules r hr).exists_field
    have hends := Mongo.ends_writeRule_skips hop hname
    cases hout : Mongo.writeRule (.usual .mongodb) r with
    | error e =>
      rw [hout] at hends
      have hfields : r.matchesField = true := hends
      rw [hmatch r hr] at hfields
      cases hfields
    | ok out => exact ⟨out, rfl, (hends.of_eq_ok hout).isNothing_iff rfl⟩
  · rw [write, Mongo.format, Writer.within_none]
    cases Mongo.writer.run (.usual .mongodb) t <;> rfl

end

/-- **Clauses.**  A tree that is read in a dialect and written in it again, with default
options, has a clause for each of its rules but those that the dialect leaves out: the
memberships without items and the ranges without bounds. -/
theorem clauses_of_parse {d : Dialect} {source : Source} {input : OptionsInput ParseOptions}
    {overrides : List (String × OptionValue)} {t : Node}
    (h : parse source (.text d.name) input overrides = .ok t) : KeepsClauses d t := by
  obtain ⟨entry, hreader, ht⟩ := exists_isRead_of_parse h
  cases d with
  | sql => exact keepsClauses_sql ht
  | cel =>
    exact keepsClauses_language (l := .cel) ht nofun nofun
      (fun field items negated => by cases negated <;> simp [Language.cel]) (fun _ => rfl) rfl
  | spel =>
    exact keepsClauses_language (l := .spel) ht nofun nofun
      (fun field items negated => by cases negated <;> simp [Language.spel]) (fun _ => rfl) rfl
  | jsonlogic => exact keepsClauses_jsonlogic ht
  | mongodb =>
    obtain rfl : ("mongodb", Mongo.read) = entry := Except.ok.inj hreader
    refine keepsClauses_mongodb ht fun r hr => ?_
    cases hmatch : r.matchesField with
    | false => rfl
    | true =>
      obtain ⟨hfields, op, hop, htext⟩ := Rule.matchesField_iff.mp hmatch
      cases (ht.of_mem_rules r hr).matching_of_isTextMatch hfields hop htext
  | parameterized | parameterizedNamed | naturalLanguage | qdrant => cases hreader

/-- The condition that a field is in no list, or that another one is 1. -/
def emptyListSpecimen : Value :=
  .map [("$or", .list [.map [("a", .map [("$in", .list [])])], .map [("b", .int 1)]])]

theorem clauses_of_parse_specimen :
    ∃ t, parse (.value emptyListSpecimen) (.text "mongodb") .defaults
        [("lists_as_arrays", .plain (.bool true))] = .ok t ∧
      t.rules = [.of "a" .isIn (.list []), .of "b" .eq (.int 1)] ∧ KeepsClauses .mongodb t := by
  obtain ⟨t, hparse, hrules⟩ : ∃ t, parse (.value emptyListSpecimen) (.text "mongodb") .defaults
      [("lists_as_arrays", .plain (.bool true))] = .ok t ∧
        t.rules = [.of "a" .isIn (.list []), .of "b" .eq (.int 1)] :=
    ⟨.group (.text "or") {} [.rule (.of "a" .isIn (.list [])), .rule (.of "b" .eq (.int 1))],
      rfl, rfl⟩
  exact ⟨t, hparse, hrules, clauses_of_parse (d := .mongodb) hparse⟩

/-- A membership without items is left out, so that a document that matches nothing is
written back as one that matches everything. -/
theorem clauses_of_parse_skipped :
    ∃ t, parse (.value (.map [("a", .map [("$in", .list [])])])) (.text "mongodb") .defaults
        [("lists_as_arrays", .plain (.bool true))] = .ok t ∧
      (∃ r ∈ t.rules, writeRule .mongodb (.usual .mongodb) r none = .ok (.value (.map []))) ∧
      format { format := .text "mongodb" } t = .ok (.value Mongo.always) :=
  ⟨.group (.text "and") {} [.rule (.of "a" .isIn (.list []))], rfl,
    ⟨_, List.mem_cons_self, rfl⟩, rfl⟩

end Query
end RuleTree
