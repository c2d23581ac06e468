import RuleTree.Proofs.DisabledNodes
import RuleTree.Proofs.GivenNames

/-! # Trees under names of the caller

A tree whose parameters the caller names is the draft of the tree with the names in the
places of its parameters (`Sql.writesNamed`), if it is written at all, which its live rules
decide one after another.  Names that are distinct are all kept with their values, and
names that come again are refused, but for one case: a rule that gets a name for two of its
own values loses the first of them, if no two rules share a name (`Query.keepsNames_iff`).
-/
namespace RuleTree
namespace Sql
open NameSource

/-! ### Drafts in a row -/

theorem ne_empty_of_placed {names marks : List String} (h : List.Forall₂ Placed names marks) :
    ∀ mark ∈ marks, mark ≠ "" := by
  induction h with
  | nil => exact nofun
  | cons hfirst _ ih => exact List.forall_mem_cons.mpr ⟨hfirst.ne_empty, ih⟩

section
variable {names more : List String} {values rest : List Value} {d : Draft} {sql : Value}
  {ds : List Draft} {sqls : List Value}

theorem NamedAs.isEmpty_eq (h : NamedAs names values d sql) : d.isEmpty = Value.isNothing sql := by
  obtain ⟨marks, hplaced, hlength, -, rfl⟩ := h
  have hempty := Draft.fill_eq_empty_iff hlength (ne_empty_of_placed hplaced)
  exact Bool.eq_iff_iff.mpr (hempty.symm.trans beq_iff_eq.symm)

/-- Nothing is bound for an empty condition. -/
theorem NamedAs.eq_nil (h : NamedAs names values d sql) (hempty : d.isEmpty = true) :
    names = [] ∧ values = [] := by
  obtain ⟨marks, hplaced, hlength, rfl, -⟩ := h
  rw [Draft.slots_of_isEmpty hempty] at hlength ⊢
  obtain rfl := List.length_eq_zero_iff.mp hlength
  cases hplaced
  exact ⟨rfl, rfl⟩

/-- Conditions in a row are drafts in a row with placeholders for the names. -/
inductive RowNamedAs : List String → List Value → List Draft → List Value → Prop where
  | nil : RowNamedAs [] [] [] []
  | cons {names more : List String} {values rest : List Value} {d : Draft} {sql : Value}
      {ds : List Draft} {sqls : List Value} : NamedAs names values d sql →
      RowNamedAs more rest ds sqls →
      RowNamedAs (names ++ more) (values ++ rest) (d :: ds) (sql :: sqls)

/-- Conditions are joined as their drafts are. -/
theorem RowNamedAs.exists_joinWith (h : RowNamedAs names values ds sqls) (separator : String) :
    ∃ marks ss, List.Forall₂ Placed names marks ∧ marks.length = (ds.flatMap Draft.slots).length ∧
      (ds.flatMap Draft.slots).map Slot.value = values ∧ sqls = ss.map .text ∧
      Text.joinWith separator ss = (Draft.between separator ds).fill marks := by
  induction h with
  | nil => exact ⟨[], [], .nil, rfl, rfl, rfl, rfl⟩
  | @cons names more values rest d sql ds sqls hfirst hrest ih =>
    obtain ⟨marks, hplaced, hlength, hvalues, rfl⟩ := hfirst
    obtain ⟨marks', ss, hplaced', hlength', hvalues', hsqls, hjoin⟩ := ih
    refine ⟨marks ++ marks', d.fill marks :: ss, List.rel_append hplaced hplaced', ?_, ?_, ?_, ?_⟩
    · simp [hlength, hlength']
    · simp [hvalues, hvalues']
    · rw [hsqls, List.map_cons]
    · -- there is a separator only between two conditions
      cases hrest with
      | nil =>
        obtain rfl := List.map_eq_nil_iff.mp hsqls.symm
        cases hplaced'
        rw [List.append_nil]
        rfl
      | cons _ _ =>
        obtain ⟨s, ss, rfl, -, -⟩ := List.map_eq_cons_iff.mp hsqls.symm
        rw [Text.joinWith_cons_cons, hjoin, Draft.between, Draft.fill_append hlength, Draft.fill,
          String.append_assoc]

theorem RowNamedAs.exists_joinGroup (h : RowNamedAs names values ds sqls) (combinator : Value)
    (negated : Bool) :
    ∃ sql, joinGroup combinator negated sqls = .ok sql ∧
      NamedAs names values (Draft.group combinator negated ds) sql := by
  obtain ⟨marks, ss, hplaced, hlength, hvalues, rfl, hjoin⟩ :=
    h.exists_joinWith (" " ++ combinator.display ++ " ")
  have hclose := Draft.fill_append (d := Draft.between (" " ++ combinator.display ++ " ") ds)
    (by rw [hlength, Draft.slots_between]) [.text ")"] []
  rw [List.append_nil] at hclose
  refine ⟨_, by rw [joinGroup, Value.texts_map]; rfl, marks, hplaced, ?_, ?_, ?_⟩
  · rw [Draft.slots_group, hlength]
  · rw [Draft.slots_group, hvalues]
  · rw [Draft.group, List.cons_append, Draft.fill, hclose, hjoin]
    simp [Draft.fill, String.append_assoc]

/-! ### Trees -/

/-- What is written of a node is a draft with placeholders for the names, or there is neither
and nothing is named. -/
inductive OutputNamedAs : List String → List Value → Option Draft → Option Value → Prop where
  | none : OutputNamedAs [] [] none none
  | some {names : List String} {values : List Value} {d : Draft} {sql : Value} :
      NamedAs names values d sql → OutputNamedAs names values (some d) (some sql)

theorem NamedAs.keep (h : NamedAs names values d sql) :
    OutputNamedAs names values (if d.isEmpty then none else some d)
      (if Value.isNothing sql then none else some sql) := by
  rw [← h.isEmpty_eq]
  cases hempty : d.isEmpty with
  | false => exact .some h
  | true =>
    obtain ⟨rfl, rfl⟩ := h.eq_nil hempty
    exact .none

/-- What is written of a node comes before what is written of those behind it. -/
theorem OutputNamedAs.cons {d : Option Draft} {sql : Option Value}
    (h : OutputNamedAs names values d sql) (hrow : RowNamedAs more rest ds sqls) :
    RowNamedAs (names ++ more) (values ++ rest) (d.toList ++ ds) (sql.toList ++ sqls) := by
  cases h with
  | none => exact hrow
  | some hnamed => exact .cons hnamed hrow

end

/-- The live rules of a node, given its path. -/
def rulesFrom (path : Path) (t : Node) : List Rule := (t.liveFrom path).map Prod.snd

/-- The live rules of the members of a group from the given position on. -/
def rulesOfMembers (path : Path) (position : Nat) (nodes : List Node) : List Rule :=
  (Node.liveMembers path position nodes).map Prod.snd

theorem rulesOfMembers_cons (path : Path) (position : Nat) (node : Node) (nodes : List Node) :
    rulesOfMembers path position (node :: nodes) =
      rulesFrom (path ++ [position]) node ++ rulesOfMembers path (position + 1) nodes := by
  rw [rulesOfMembers, Node.liveMembers, List.map_append]
  rfl

section
variable {source : NameSource}

/-- What is written of a node is its draft with placeholders for the names that its live rules
get. -/
def WritesNamed (source : NameSource) (t : Node) : Prop :=
  ∀ path, ∃ d, draftWriter.writeNode draftPlan none path t {} = .ok (d, {}) ∧
    ∀ {s s' sql},
      (boundWriter .parameterizedNamed).writeNode (namedBy source) none path t s = .ok (sql, s') →
      ∃ names, source.namesFor s.asked (fieldsOf (rulesFrom path t)) = .ok names ∧
        s'.asked = (fieldsOf (rulesFrom path t)).reverse ++ s.asked ∧
        OutputNamedAs names (valuesOf (rulesFrom path t)) d sql

/-- What is written of members are their drafts in a row. -/
theorem rowNamedAs_of_writeMembers {nodes : List Node}
    (ih : ∀ node ∈ nodes, WritesNamed source node) (path : Path) (position : Nat) :
    ∃ ds, draftWriter.writeMembers draftPlan none path position nodes {} = .ok (ds, {}) ∧
      ∀ {s s' sqls}, (boundWriter .parameterizedNamed).writeMembers (namedBy source) none path
          position nodes s = .ok (sqls, s') →
        ∃ names, source.namesFor s.asked (fieldsOf (rulesOfMembers path position nodes)) =
            .ok names ∧
          s'.asked = (fieldsOf (rulesOfMembers path position nodes)).reverse ++ s.asked ∧
          RowNamedAs names (valuesOf (rulesOfMembers path position nodes)) ds sqls := by
  induction nodes generalizing position with
  | nil =>
    have hrules : rulesOfMembers path position [] = [] := by
      rw [rulesOfMembers, Node.liveMembers, List.map_nil]
    refine ⟨[], by rw [Writer.writeMembers]; rfl, fun hwrite => ?_⟩
    rw [Writer.writeMembers] at hwrite
    cases hwrite
    rw [hrules]
    exact ⟨[], rfl, rfl, .nil⟩
  | cons node nodes ihn =>
    obtain ⟨ihnode, ihrest⟩ := List.forall_mem_cons.mp ih
    obtain ⟨d, hdraft, hnode⟩ := ihnode (path ++ [position])
    obtain ⟨ds, hdrafts, hnodes⟩ := ihn ihrest (position + 1)
    refine ⟨d.toList ++ ds, ?_, fun hwrite => ?_⟩
    · rw [Writer.writeMembers, Write.bind_of_ok hdraft, Write.bind_of_ok hdrafts]
      rfl
    · rw [Writer.writeMembers] at hwrite
      obtain ⟨sql, s₁, hfirst, hwrite⟩ := Writer.bind_apply_eq_ok hwrite
      obtain ⟨sqls, s₂, hothers, hwrite⟩ := Writer.bind_apply_eq_ok hwrite
      cases hwrite
      obtain ⟨names, hnames, hasked, hout⟩ := hnode hfirst
      obtain ⟨more, hmore, hasked', hrow⟩ := hnodes hothers
      rw [hasked] at hmore hasked'
      rw [rulesOfMembers_cons, fieldsOf_append, valuesOf_append, namesFor_append, hnames,
        Result.ok_bind, hmore]
      exact ⟨names ++ more, rfl, by rw [hasked', List.reverse_append, List.append_assoc],
        hout.cons hrow⟩

/-- Nothing is asked for what is left out. -/
theorem outputNamedAs_none {s s' : Bindings} {sql : Option Value}
    (h : (pure none : Write (Option Value)) s = .ok (sql, s')) :
    ∃ names, source.namesFor s.asked (fieldsOf []) = .ok names ∧
      s'.asked = (fieldsOf []).reverse ++ s.asked ∧ OutputNamedAs names (valuesOf []) none sql := by
  cases h
  exact ⟨[], rfl, rfl, .none⟩

theorem writesNamed_rule {r : Rule} {op : Operator} (hop : r.operator? = some op) :
    WritesNamed source (.rule r) := by
  intro path
  have hrules : rulesFrom path (.rule r) = if r.disabled then [] else [r] := by
    rw [rulesFrom, Node.liveFrom]
    split <;> rfl
  rw [hrules]
  unfold Writer.writeNode
  cases hdisabled : r.disabled with
  | true => exact ⟨none, rfl, outputNamedAs_none⟩
  | false =>
    obtain ⟨d, hdraft, hnamed⟩ := namedAs_of_writeRule source hop path
    simp only [Judgement.passes, Bool.not_true, Bool.or_self, Bool.false_eq_true, if_false]
    refine ⟨_, by rw [Write.bind_of_ok hdraft]; rfl, fun hwrite => ?_⟩
    obtain ⟨sql, s₁, hrule, hwrite⟩ := Writer.bind_apply_eq_ok hwrite
    cases hwrite
    obtain ⟨names, hnames, hasked, hnamed⟩ := hnamed hrule
    exact ⟨names, hnames, hasked, hnamed.keep⟩

theorem writesNamed_group {combinator : Value} {flags : GroupFlags} {children : List Node}
    (h : ∀ child ∈ children, WritesNamed source child) :
    WritesNamed source (.group combinator flags children) := by
  intro path
  have hrules : rulesFrom path (.group combinator flags children) =
      if flags.disabled then [] else rulesOfMembers path 0 children := by
    rw [rulesFrom, Node.liveFrom]
    split <;> rfl
  rw [hrules]
  unfold Writer.writeNode
  cases hdisabled : flags.disabled with
  | true => exact ⟨none, rfl, outputNamedAs_none⟩
  | false =>
    obtain ⟨ds, hdrafts, hrow⟩ := rowNamedAs_of_writeMembers h path 0
    simp only [Judgement.passes, Bool.not_true, Bool.or_self, Bool.false_eq_true, if_false]
    rw [Write.bind_of_ok hdrafts]
    -- a group without drafts is left out, others are joined
    cases ds with
    | nil =>
      refine ⟨none, rfl, fun hwrite => ?_⟩
      obtain ⟨sqls, s₁, hmembers, hwrite⟩ := Writer.bind_apply_eq_ok hwrite
      obtain ⟨names, hnames, hasked, hnamed⟩ := hrow hmembers
      generalize valuesOf (rulesOfMembers path 0 children) = values at hnamed ⊢
      cases hnamed
      cases hwrite
      exact ⟨[], hnames, hasked, .none⟩
    | cons d ds =>
      refine ⟨_, rfl, fun hwrite => ?_⟩
      obtain ⟨sqls, s₁, hmembers, hwrite⟩ := Writer.bind_apply_eq_ok hwrite
      obtain ⟨names, hnames, hasked, hnamed⟩ := hrow hmembers
      obtain ⟨sql, hjoin, hgroup⟩ := hnamed.exists_joinGroup combinator flags.negated
      generalize valuesOf (rulesOfMembers path 0 children) = values at hnamed hgroup ⊢
      cases hnamed
      obtain ⟨sql', s₂, hcombine, hwrite⟩ := Writer.bind_apply_eq_ok hwrite
      obtain ⟨hjoined, rfl⟩ := Writer.lift_apply_eq_ok hcombine
      obtain rfl : sql = sql' := Except.ok.inj (hjoin.symm.trans hjoined)
      cases hwrite
      exact ⟨_, hnames, hasked, hgroup.keep⟩

/-- **Trees.**  What is written of a standard tree is its draft with placeholders for the names
that its live rules get. -/
theorem writesNamed (source : NameSource) {t : Node} (ht : t.IsStandard)
    (hops : ∀ r ∈ t.rules, ∃ op, r.operator? = some op) : WritesNamed source t := by
  induction ht with
  | rule r =>
    rw [Node.rules_rule] at hops
    obtain ⟨op, hop⟩ := hops r List.mem_cons_self
    exact writesNamed_rule hop
  | group _ ih =>
    rw [Node.rules_group] at hops
    exact writesNamed_group fun child hchild => ih child hchild fun r hr =>
      hops r (List.mem_flatMap.mpr ⟨child, hchild, hr⟩)

/-- Rules with operators are written as texts, whatever names they get. -/
theorem joins_namedBy : (boundWriter .parameterizedNamed).Joins (namedBy source)
    (fun out => ∃ s, out = .text s) (fun _ => True) (fun r => ∃ op, r.operator? = some op) where
  rule := by
    rintro r path s s' out ⟨op, hop⟩ hwrite
    obtain ⟨d, -, hnamed⟩ := namedAs_of_writeRule source hop path
    obtain ⟨names, -, -, marks, -, -, -, hsql⟩ := hnamed hwrite
    exact ⟨_, hsql⟩
  combine := by
    intro outs combinator houts _ _ negated isRoot
    obtain ⟨s, hjoined⟩ := exists_joinGroup houts combinator negated
    exact ⟨.text s, hjoined, s, rfl⟩

end

end Sql

/-! ### Queries -/

namespace Node
variable {t : Node}

/-- The rules of a tree that are written, in order. -/
def written (t : Node) : List Rule := t.liveRules.map Prod.snd

/-- The group of a standard tree has the live rules of the tree. -/
theorem IsStandard.rulesFrom_asGroup (ht : t.IsStandard) :
    Sql.rulesFrom [] t.asGroup = t.written := by
  rw [written, liveRules_eq ht]
  cases ht with
  | group _ => rfl
  | rule r =>
    have hgroup : (Node.rule r).asGroup.liveFrom [] = liveMembers [] 0 [.rule r] := rfl
    rw [Sql.rulesFrom, hgroup, liveMembers, liveMembers, List.append_nil, liveFrom, liveFrom]
    split <;> rfl

end Node

namespace Query
open Sql
variable {source : NameSource} {t : Node}

/-- The options of parameters that the caller names. -/
def naming (source : NameSource) : FormatOptions :=
  { format := .text "parameterized_named", names := .given source }

/-- A query is written as the group of its tree is. -/
theorem format_naming (source : NameSource) (ht : t.IsStandard) :
    format (naming source) t = (do
      let (output, bindings) ←
        (boundWriter .parameterizedNamed).writeNode (namedBy source) none [] t.asGroup {}
      return .bound ⟨output.getD (.text always), .map bindings.named⟩) := by
  have hresolve : (naming source).resolve = .ok (namedBy source) := rfl
  have hvalidate : (namedBy source).validate = false := rfl
  have hrun := Writer.run_of_not_validate (boundWriter .parameterizedNamed) t hvalidate
  rw [ht.standardRoot_eq_asGroup, Result.ok_bind] at hrun
  have hbound : bound .parameterizedNamed (namedBy source) t = (do
      let (output, bindings) ← (boundWriter .parameterizedNamed).run (namedBy source) t
      return ⟨output.getD (.text always), .map bindings.named⟩) := rfl
  rw [format_eq_write hresolve rfl ht.isTree]
  show (bound .parameterizedNamed (namedBy source) t).map Output.bound = _
  rw [hbound, hrun, Result.map_bind]
  rfl

/-- How a tree with names for its parameters is written: with question marks it is a row of
texts with its values, and with the names it is the same texts with placeholders for the names
between them, and the same values under the names. -/
def WrittenWith (source : NameSource) (t : Node) (names : List String) : Prop :=
  ∃ (first : String) (texts marks : List String) (values : List Value),
    texts.length = names.length ∧ values.length = names.length ∧
    List.Forall₂ Placed names marks ∧
    format { format := .text "parameterized" } t = .ok (.bound
      ⟨.text (weave first (List.replicate names.length "?") texts), .list values⟩) ∧
    format (naming source) t =
      .ok (.bound ⟨.text (weave first marks texts), .map (names.zip values)⟩)

/-- Whether no name is lost: names that are distinct are those of all the values, and a name
that comes again is refused. -/
structure KeepsNames (source : NameSource) (t : Node) : Prop where
  distinct (names : List String) : source.namesFor [] (fieldsOf t.written) = .ok names →
    names.Nodup → WrittenWith source t names
  repeated (names : List String) : source.namesFor [] (fieldsOf t.written) = .ok names →
    ¬names.Nodup → ∃ name, format (naming source) t =
      .error (.invalidOption (.duplicateParameter name))
  /-- Where a name is refused by the callback, so is the tree, or it is for a name before. -/
  refused (e : Error) : source.namesFor [] (fieldsOf t.written) = .error e →
    format (naming source) t = .error e ∨ ∃ name, format (naming source) t =
      .error (.invalidOption (.duplicateParameter name))

section
variable (ht : t.IsStandard) (hops : ∀ r ∈ t.rules, ∃ op, r.operator? = some op)
include ht hops

theorem tracks_naming (source : NameSource) :
    Writer.Tracks (fun output => ∀ out ∈ output, ∃ s, out = Value.text s)
      ((boundWriter .parameterizedNamed).writeNode (namedBy source) none [] t.asGroup {})
      ((boundWriter .parameterizedNamed).writeRules (namedBy source) (t.asGroup.liveFrom []) {}) :=
  joins_namedBy.tracks ht.asGroup (by rwa [Node.rules_asGroup]) (fun _ _ => trivial) [] {}

theorem exists_operator_of_live : ∀ e ∈ t.asGroup.liveFrom [], ∃ op, e.2.operator? = some op :=
  fun e he => hops e.2 (by
    rw [← Node.rules_asGroup]
    exact Node.mem_rules_of_mem_liveFrom ht.asGroup he)

/-- Rules that share no names are written. -/
theorem exists_writeNode {rows : List (List String)}
    (hrows : rowsFor source [] t.written = .ok rows) (h : rows.Pairwise List.Disjoint) :
    ∃ out s, (boundWriter .parameterizedNamed).writeNode (namedBy source) none [] t.asGroup {} =
        .ok (out, s) ∧
      ((∀ names ∈ rows, names.Nodup) → s.named = rows.flatten.zip (valuesOf t.written)) := by
  rw [← ht.rulesFrom_asGroup] at hrows ⊢
  obtain ⟨s, hwrites, hnamed⟩ := exists_writeRules (s := {}) (exists_operator_of_live ht hops)
    List.nodup_nil hrows (List.pairwise_cons.mpr ⟨fun _ _ => List.disjoint_nil_left _, h⟩)
  have htracks := tracks_naming ht hops source
  rw [hwrites] at htracks
  generalize (boundWriter .parameterizedNamed).writeNode (namedBy source) none [] t.asGroup {} = x
    at htracks
  cases htracks with
  | ok _ _ => exact ⟨_, s, rfl, fun hnodup => (hnamed hnodup).trans (List.nil_append _)⟩

/-- Rules of which two share a name, or one does not get its names, are refused. -/
theorem format_naming_eq_error (h : ∀ rows, rowsFor source [] t.written = .ok rows →
      ¬rows.Pairwise List.Disjoint) :
    ∃ e, format (naming source) t = .error e ∧ NamesRefused source [] t.written e := by
  rw [← ht.rulesFrom_asGroup] at h ⊢
  obtain ⟨e, herror, hrefused⟩ := exists_writeRules_eq_error (s := {})
    (exists_operator_of_live ht hops) List.nodup_nil fun rows hrows hpairwise =>
      h rows hrows (List.pairwise_cons.mp hpairwise).2
  have htracks := tracks_naming ht hops source
  rw [herror] at htracks
  refine ⟨e, ?_, hrefused⟩
  rw [format_naming source ht, htracks.eq_error]
  rfl

omit hops in
/-- With question marks a query is its draft with question marks. -/
theorem format_of_draft {d : Option Draft}
    (h : draftWriter.writeNode draftPlan none [] t.asGroup {} = .ok (d, {})) :
    format { format := .text "parameterized" } t = .ok (.bound
      ⟨(d.map fun d => Value.text (d.fill (List.replicate d.slots.length "?"))).getD (.text always),
        .list ((d.getD []).slots.map (·.value))⟩) := by
  have hrun : draftWriter.run draftPlan t = .ok (d, {}) := by
    have hvalidate : draftPlan.validate = false := rfl
    rw [Writer.run_of_not_validate draftWriter t hvalidate, ht.standardRoot_eq_asGroup,
      Result.ok_bind, h]
  have hhook : (FormatPlan.usual .parameterized).valueHook = .absent := rfl
  have hbound := bound_of_ok .unnumbered hhook rfl nofun nofun hrun
  simp only [Binding.along_unnumbered] at hbound
  have hformat : format { format := .text "parameterized" } t =
      (bound .parameterized (.usual .parameterized) t).map .bound :=
    format_eq_write (FormatOptions.resolve_name .parameterized) rfl ht.isTree
  rw [hformat, show bound .parameterized (.usual .parameterized) t = _ from hbound]
  rfl

/-- Distinct names are those of all values. -/
theorem writtenWith_of_nodup {names : List String}
    (hnames : source.namesFor [] (fieldsOf t.written) = .ok names) (hnodup : names.Nodup) :
    WrittenWith source t names := by
  rw [namesFor_fieldsOf] at hnames
  obtain ⟨rows, hrows, rfl⟩ := Result.map_eq_ok hnames
  obtain ⟨hrow, hdisjoint⟩ := List.nodup_flatten.mp hnodup
  obtain ⟨out, s, hwrite, hnamed⟩ := exists_writeNode ht hops hrows hdisjoint
  obtain ⟨d, hdraft, hwritten⟩ := writesNamed source ht.asGroup (by rwa [Node.rules_asGroup]) []
  obtain ⟨names, hnames, -, hout⟩ := hwritten hwrite
  rw [ht.rulesFrom_asGroup] at hnames hout
  -- the output was written with the same names
  have hflatten : rows.flatten = names := by
    rw [namesFor_fieldsOf, show rowsFor source _ t.written = _ from hrows] at hnames
    exact Except.ok.inj hnames
  have hnaming := format_naming source ht
  rw [hwrite, Result.ok_bind] at hnaming
  dsimp only at hnaming
  rw [hnamed hrow, hflatten] at hnaming
  rw [WrittenWith, hflatten, format_of_draft ht hdraft, hnaming]
  generalize valuesOf t.written = values at hout ⊢
  cases hout with
  | none => exact ⟨always, [], [], [], rfl, rfl, .nil, rfl, rfl⟩
  | @some names values d sql hout =>
    obtain ⟨marks, hplaced, hlength, rfl, rfl⟩ := hout
    have hcount : d.slots.length = names.length := hlength.symm.trans hplaced.length_eq.symm
    refine ⟨d.first, d.texts, marks, d.slots.map (·.value), d.length_texts.trans hcount,
      by rw [List.length_map, hcount], hplaced, ?_, ?_⟩
    · rw [← hcount, ← Draft.fill_eq_weave List.length_replicate]
      rfl
    · rw [← Draft.fill_eq_weave hlength]
      rfl

/-- **Names of the caller.**  No name is lost exactly if a rule gets a name for two of its own
values only where two rules share one, which is refused. -/
theorem keepsNames_iff : KeepsNames source t ↔
    ∀ rows, rowsFor source [] t.written = .ok rows → rows.Pairwise List.Disjoint →
      ∀ names ∈ rows, names.Nodup := by
  constructor
  · intro hkeeps rows hrows hdisjoint
    by_contra hrow
    have hnames : source.namesFor [] (fieldsOf t.written) = .ok rows.flatten := by
      rw [namesFor_fieldsOf, hrows]
      rfl
    -- a name comes again in the rule alone, so the tree is written all the same
    have hrepeated : ¬rows.flatten.Nodup := fun hnodup => hrow (List.nodup_flatten.mp hnodup).1
    obtain ⟨name, herror⟩ := hkeeps.repeated _ hnames hrepeated
    obtain ⟨out, s, hwrite, -⟩ := exists_writeNode ht hops hrows hdisjoint
    rw [format_naming source ht, hwrite] at herror
    cases herror
  · intro hrow
    refine ⟨fun names hnames hnodup => writtenWith_of_nodup ht hops hnames hnodup, ?_, ?_⟩
    · intro names hnames hrepeated
      rw [namesFor_fieldsOf] at hnames
      obtain ⟨rows, hrows, rfl⟩ := Result.map_eq_ok hnames
      -- no rule has the name twice, so two rules share it
      have hshared : ∀ rows, rowsFor source [] t.written = .ok rows →
          ¬rows.Pairwise List.Disjoint := by
        intro rows' hrows' hdisjoint
        obtain rfl := Except.ok.inj (hrows.symm.trans hrows')
        exact hrepeated (List.nodup_flatten.mpr ⟨hrow rows hrows hdisjoint, hdisjoint⟩)
      obtain ⟨e, herror, hnone | ⟨name, rfl⟩⟩ := format_naming_eq_error ht hops hshared
      · cases hrows.symm.trans hnone
      · exact ⟨name, herror⟩
    · intro e hnames
      rw [namesFor_fieldsOf] at hnames
      have hnone : rowsFor source [] t.written = .error e := Result.map_eq_error hnames
      obtain ⟨e', herror, hnone' | ⟨name, rfl⟩⟩ := format_naming_eq_error ht hops
        fun rows hrows _ => by cases hnone.symm.trans hrows
      · obtain rfl := Except.error.inj (hnone.symm.trans hnone')
        exact .inl herror
      · exact .inr ⟨name, herror⟩

end

/-- A range in a negated group behind a row of values, with a disabled rule between them. -/
def givenSpecimen : Node :=
  .group (.text "or") {}
    [.rule (Rule.of "a" .isIn (.list [.int 1, .int 2])),
      .rule { Rule.of "b" .eq (.int 0) with disabled := true },
      .group (.text "and") { negated := true }
        [.rule (Rule.of "c" .between (.list [.int 3, .int 4]))]]

/-- Names by number are kept, and one name for all values is refused. -/
theorem keepsNames_iff_specimen :
    givenSpecimen.IsStandard ∧ (∀ r ∈ givenSpecimen.rules, ∃ op, r.operator? = some op) ∧
      KeepsNames (fun _ asked => .ok ("p" ++ Value.natText asked.length)) givenSpecimen ∧
      KeepsNames (fun _ _ => .ok "p") givenSpecimen := by
  have ht : givenSpecimen.IsStandard := by
    refine .group ?_
    simp only [List.forall_mem_cons]
    exact ⟨.rule _, .rule _, .group (by simpa using Node.IsStandard.rule _), nofun⟩
  have hops : ∀ r ∈ givenSpecimen.rules, ∃ op, r.operator? = some op := by
    simp only [givenSpecimen, Node.rules_group, Node.rules_rule, List.flatMap_cons,
      List.flatMap_nil, List.append_nil, List.singleton_append, List.forall_mem_cons]
    exact ⟨⟨_, rfl⟩, ⟨_, rfl⟩, ⟨_, rfl⟩, nofun⟩
  refine ⟨ht, hops, (keepsNames_iff ht hops).mpr ?_, (keepsNames_iff ht hops).mpr ?_⟩
  · intro rows hrows _
    obtain rfl : rows = [["p0", "p1"], ["p2", "p3"]] := (Except.ok.inj hrows).symm
    decide
  · intro rows hrows hdisjoint
    obtain rfl : rows = [["p", "p"], ["p", "p"]] := (Except.ok.inj hrows).symm
    have hshared := (List.pairwise_cons.mp hdisjoint).1 ["p", "p"] List.mem_cons_self
    exact (hshared List.mem_cons_self List.mem_cons_self).elim

/-- One name for two values of a rule stands twice in its text, and has the last value. -/
theorem keepsNames_iff_overwritten :
    format (naming fun _ _ => .ok "p") (.rule (Rule.of "a" .isIn (.list [.int 1, .int 2]))) =
        .ok (.bound ⟨.text "(a in (:p, :p))", .map [("p", .int 2)]⟩) ∧
      ¬KeepsNames (fun _ _ => .ok "p") (.rule (Rule.of "a" .isIn (.list [.int 1, .int 2]))) := by
  refine ⟨rfl, fun hkeeps => ?_⟩
  obtain ⟨name, herror⟩ := hkeeps.repeated ["p", "p"] rfl (by decide)
  cases herror

end Query
end RuleTree
