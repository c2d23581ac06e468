import RuleTree.Proofs.Formulas
import RuleTree.Proofs.StandardForm
import RuleTree.Query

/-! # Trees that come back

`Query.reread dialect t` writes a tree in a dialect and reads the result, with
default options except that list values stay lists.  A dialect gives canonical
trees back if what its writer makes of rules is read as clauses that become the
rules, and if the outputs of members that are read as clauses combine to what is
read as their group.  `Echo` says so of a writer, and `Echo.roundTrip` goes from
there to every canonical tree, by induction on it.
-/
namespace RuleTree

/-! ### Default options -/

/-- What default options for writing in a dialect come to. -/
def FormatPlan.usual (dialect : Dialect) : FormatPlan := { style := { format := .dialect dialect } }

/-- Writes a tree in the dialect of a name, and reads what is written, with list
values kept as lists. -/
def Query.reread (dialect : String) (t : Node) : Result Node := do
  let options ← FormatOptions.build (.name dialect) []
  let output ← Query.format options t
  let source ← Query.Source.ofOutput (← options.resolve) t output
  Query.parse source (.text dialect) .defaults [("lists_as_arrays", .plain (.bool true))]

/-- Rereading is writing with the default plan and reading with lists. -/
theorem Query.reread_eq {name : String} {dialect : Dialect} {options : FormatOptions}
    {read : Query.Reader} {combinator : Value} {flags : GroupFlags} {children : List Node}
    {v : Value} {t : Node} (hbuild : FormatOptions.build (.name name) [] = .ok options)
    (hresolve : options.resolve = .ok (.usual dialect))
    (hreader : Query.reader (.text name) = .ok (name, read))
    (hwrite : Query.write dialect (.usual dialect) (.group combinator flags children) =
      .ok (.value v))
    (hsource : Query.Source.ofOutput (.usual dialect) (.group combinator flags children)
      (.value v) = .ok (.value v))
    (hread : read .arrays v = .ok t) :
    Query.reread name (.group combinator flags children) = .ok t := by
  have hformat : Query.format options (.group combinator flags children) = .ok (.value v) := by
    rw [Query.format, hresolve]
    exact hwrite
  have hparse : Query.parse (.value v) (.text name) .defaults
      [("lists_as_arrays", .plain (.bool true))] = .ok t := by
    rw [Query.parse, hreader]
    exact hread
  rw [Query.reread, hbuild, Result.ok_bind, hformat, Result.ok_bind, hresolve, Result.ok_bind,
    hsource, Result.ok_bind, hparse]

/-! ### Writing canonical trees -/

/-- Canonical trees are standard as they are. -/
theorem Node.Canonical.isStandard {d : Repertoire} {isRoot : Bool} {t : Node}
    (h : t.Canonical d isRoot) : t.IsStandard := by
  induction h with
  | rule => exact .rule _
  | group _ _ _ _ _ ih => exact .group ih

theorem Node.Canonical.standardMember_eq {d : Repertoire} {isRoot : Bool} {t : Node}
    (h : t.Canonical d isRoot) : t.standardMember = .ok t := h.isStandard.standardMember_eq

namespace Writer
variable {α : Type} {w : Writer α} {dialect : Dialect}

/-- Canonical rules can be expressed wherever every operator can. -/
theorem canExpress_of_ne_qdrant (h : w.dialect ≠ .qdrant) {r : Rule} {op : Operator}
    (hop : r.operator? = some op) : w.canExpress r = true := by
  rw [canExpress, hop]
  exact Dialect.supports_of_ne_qdrant h op

/-- Without functions of the caller a rule is written by the dialect. -/
theorem writeRule_usual {r : Rule} {out : α} (hexpress : w.canExpress r = true)
    (hwrite : ∀ context, w.write (.usual dialect) r context = pure out) (path : Path) :
    w.writeRule (.usual dialect) path r = pure out := by
  simp only [writeRule, FormatPlan.fieldOf, FormatPlan.usual, hexpress]
  funext bindings
  exact congrFun (hwrite _) bindings

/-- An enabled rule is written, unless its output is empty. -/
theorem writeNode_rule {r : Rule} {out : α} (hexpress : w.canExpress r = true)
    (hdisabled : r.disabled = false)
    (hwrite : ∀ context, w.write (.usual dialect) r context = pure out) (path : Path) :
    w.writeNode (.usual dialect) none path (.rule r) =
      pure (if w.isEmpty out then none else some out) := by
  rw [writeNode, writeRule_usual hexpress hwrite]
  simp [hdisabled, Judgement.passes]

/-- Members are written one by one. -/
theorem writeMembers_of_forall₂ {plan : FormatPlan} {judgement : Judgement} {path : Path}
    {children : List Node} {outs : List (Option α)}
    (h : List.Forall₂ (fun child out => ∀ path, path ≠ [] →
      w.writeNode plan judgement path child = pure out) children outs) (position : Nat) :
    w.writeMembers plan judgement path position children = pure (outs.flatMap Option.toList) := by
  induction h generalizing position with
  | nil => rw [writeMembers]; rfl
  | cons hchild _ ih =>
    rw [writeMembers, hchild _ (by simp), ih]
    simp

/-- An empty group is left out. -/
theorem writeNode_nil {plan : FormatPlan} {combinator : Value} {flags : GroupFlags}
    (hdisabled : flags.disabled = false) (path : Path) :
    w.writeNode plan none path (.group combinator flags []) = pure none := by
  rw [writeNode, writeMembers]
  simp [hdisabled, Judgement.passes]

/-- A group is written by combining the outputs of its members. -/
theorem writeNode_group {plan : FormatPlan} {combinator : Value} {flags : GroupFlags}
    {children : List Node} {outs : List α} {out : α} (hdisabled : flags.disabled = false)
    (h : List.Forall₂ (fun child out => ∀ path, path ≠ [] →
      w.writeNode plan none path child = pure (some out)) children outs) (hne : outs ≠ [])
    {path : Path} (hcombine : w.combine combinator flags.negated path.isEmpty outs = .ok out)
    (hempty : w.isEmpty out = false) :
    w.writeNode plan none path (.group combinator flags children) = pure (some out) := by
  have hmembers : w.writeMembers plan none path 0 children = pure outs := by
    have hsome : w.writeMembers plan none path 0 children =
        pure ((outs.map some).flatMap Option.toList) :=
      writeMembers_of_forall₂ (List.forall₂_map_right_iff.mpr h) 0
    simpa [List.flatMap_map] using hsome
  obtain ⟨head, rest, rfl⟩ := List.exists_cons_of_ne_nil hne
  have hkeep : (if w.isEmpty out = true then none else some out) = some out := by
    rw [hempty, if_neg (by simp)]
  rw [writeNode, hmembers]
  simp only [hdisabled, Judgement.passes, Bool.not_true, Bool.or_false, Bool.false_eq_true,
    if_false, pure_bind, hcombine]
  exact congrArg (pure : Option α → Write (Option α)) hkeep

end Writer

/-! ### Reading what was written -/

/-- How the outputs of a writer are read: its rules and groups as clauses that
become the rules and groups again. -/
structure Echo {α : Type} (w : Writer α) (dialect : Dialect) (traits : SourceTraits)
    (d : Repertoire) where
  /-- As a part of a group the output is read as the clause. -/
  Reads : α → Clause → Prop
  /-- The clause of a whole output; none if it says nothing. -/
  whole : α → Result (Option Clause)
  /-- What is written for an empty query. -/
  always : α
  express : w.dialect ≠ .qdrant
  isEmpty_of_reads {out : α} {c : Clause} : Reads out c → w.isEmpty out = false
  /-- The output of a rule is read as a clause that becomes the rule. -/
  rule {source : ValueSource} {field : String} {op : Operator} {v : Value} (id : Value) :
    d.IsName field → d.Takes op source v →
    ∃ out c, (∀ context, w.write (.usual dialect)
        { Rule.ofSource source field op v with id := id } context = pure out) ∧
      Reads out c ∧ Clause.Builds traits c (.rule (Rule.ofSource source field op v))
  /-- Two comparisons that are no range are told from one. -/
  range {negated : Bool} {j : Junction} {children : List Node} :
    d.IsDistinct false negated j children → traits.rangesAsPairs = true → negated = false →
    ¬Node.IsRangePair j children
  /-- The outputs of the members of a group make up one that is read as the
  group of their clauses. -/
  group {negated : Bool} {j : Junction} {children : List Node} {outs : List α}
      {head : Clause} {cs : List Clause} :
    (∀ child ∈ children, child.Canonical d false) → d.IsDistinct false negated j children →
    List.Forall₂ (Clause.Builds traits) (head :: cs) (children.map Node.withoutIds) →
    List.Forall₂ Reads outs (head :: cs) →
    ∃ out, w.combine (.text j.name) negated false outs = .ok out ∧
      Reads out (Clause.join j negated (head :: cs))
  /-- At the root they make up an output that is read as a whole as that group,
  once its parentheses are dropped. -/
  root {negated : Bool} {j : Junction} {children : List Node} {outs : List α}
      {head : Clause} {cs : List Clause} :
    (∀ child ∈ children, child.Canonical d false) → d.IsDistinct true negated j children →
    List.Forall₂ (Clause.Builds traits) (head :: cs) (children.map Node.withoutIds) →
    List.Forall₂ Reads outs (head :: cs) →
    ∃ out c, w.combine (.text j.name) negated true outs = .ok out ∧ w.isEmpty out = false ∧
      whole out = .ok (some c) ∧ c.isConstant = false ∧
      Clause.unwrapRoot traits c = Clause.join j negated (head :: cs)
  /-- What is written for an empty query is read as one. -/
  blank : (whole always).bind (Clause.toTree traits .arrays) = .ok (.group (.text "and") {} [])

namespace Echo
variable {α : Type} {w : Writer α} {dialect : Dialect} {traits : SourceTraits} {d : Repertoire}
variable (e : Echo w dialect traits d)

/-- As a member of a group the node is written as an output that is read as a
clause which becomes the node again. -/
structure Returns (node : Node) (out : α) (c : Clause) : Prop where
  writes : ∀ path, path ≠ [] → w.writeNode (.usual dialect) none path node = pure (some out)
  reads : e.Reads out c
  builds : Clause.Builds traits c node.withoutIds

/-- Members that come back do so in a row. -/
theorem returns_all {children : List Node}
    (h : ∀ child ∈ children, ∃ out c, e.Returns child out c) :
    ∃ outs cs, List.Forall₂ (fun child out => ∀ path, path ≠ [] →
        w.writeNode (.usual dialect) none path child = pure (some out)) children outs ∧
      List.Forall₂ e.Reads outs cs ∧
      List.Forall₂ (Clause.Builds traits) cs (children.map Node.withoutIds) := by
  induction children with
  | nil => exact ⟨[], [], .nil, .nil, .nil⟩
  | cons child children ih =>
    obtain ⟨out, c, hchild⟩ := h child List.mem_cons_self
    obtain ⟨outs, cs, hwrites, hreads, hbuilds⟩ := ih fun c hc => h c (List.mem_cons_of_mem _ hc)
    exact ⟨out :: outs, c :: cs, .cons hchild.writes hwrites, .cons hchild.reads hreads,
      .cons hchild.builds hbuilds⟩

/-- The members of a canonical group, if there are any, in a row. -/
theorem exists_members {children : List Node} (hne : children ≠ [])
    (h : ∀ child ∈ children, ∃ out c, e.Returns child out c) :
    ∃ outs head cs, outs ≠ [] ∧
      List.Forall₂ (fun child out => ∀ path, path ≠ [] →
        w.writeNode (.usual dialect) none path child = pure (some out)) children outs ∧
      List.Forall₂ e.Reads outs (head :: cs) ∧
      List.Forall₂ (Clause.Builds traits) (head :: cs) (children.map Node.withoutIds) := by
  obtain ⟨outs, cs, hwrites, hreads, hbuilds⟩ := e.returns_all h
  obtain ⟨child, children, rfl⟩ := List.exists_cons_of_ne_nil hne
  cases hwrites with
  | cons hchild hrest =>
    cases hreads with
    | cons hhead hcs =>
      exact ⟨_, _, _, by simp, .cons hchild hrest, .cons hhead hcs, hbuilds⟩

/-- Every canonical member of a group comes back. -/
theorem returns {t : Node} (h : t.Canonical d false) : ∃ out c, e.Returns t out c := by
  -- the induction needs a variable here; members are never the root
  generalize hroot : false = isRoot at h
  induction h with
  | @rule r hr =>
    obtain @⟨source, field, op, v, id, hname, htakes⟩ := hr
    obtain ⟨out, c, hwrite, hreads, hbuilds⟩ := e.rule id hname htakes
    refine ⟨out, c, fun path _ => ?_, hreads, ?_⟩
    · have hop := Rule.operator?_ofSource source field op v id
      rw [Writer.writeNode_rule (Writer.canExpress_of_ne_qdrant e.express hop) rfl hwrite path,
        e.isEmpty_of_reads hreads, if_neg (by simp)]
    · exact hbuilds
  | @group isRoot negated j children id hnil hjunction hdistinct hchildren ih =>
    subst hroot
    have hne : children ≠ [] := fun he => by simp at hnil; exact absurd he hnil
    obtain ⟨outs, head, cs, houts, hwrites, hreads, hbuilds⟩ :=
      e.exists_members hne fun child hc => ih child hc rfl
    obtain ⟨out, hcombine, hout⟩ := e.group hchildren hdistinct hbuilds hreads
    refine ⟨out, _, fun path hpath => ?_, hout, ?_⟩
    · refine Writer.writeNode_group rfl hwrites houts ?_ (e.isEmpty_of_reads hout)
      rwa [List.isEmpty_eq_false_iff.mpr hpath]
    · rw [Node.withoutIds_group]
      refine Clause.Builds.join hbuilds (fun hlt => hjunction (by simpa using hlt)) ?_
      exact Clause.recovered?_eq_none hbuilds hchildren (e.range hdistinct)

/-- A canonical root is written as its node is. -/
theorem run_of_writeNode {combinator : Value} {flags : GroupFlags} {children : List Node}
    {output : Option α} (hstandard : Node.toStandard (.group combinator flags children) =
      .ok (.group combinator flags children))
    (h : w.writeNode (.usual dialect) none [] (.group combinator flags children) = pure output) :
    w.run (.usual dialect) (.group combinator flags children) = .ok (output, {}) := by
  simp only [Writer.run, hstandard, FormatPlan.usual, Bool.false_eq_true, if_false]
  exact congrFun h {}

/-- **Round trip.**  Every canonical tree is written as an output that is read as
the tree without its ids. -/
theorem roundTrip {t : Node} (h : t.Canonical d true) :
    ∃ output, w.run (.usual dialect) t = .ok (output, {}) ∧
      (e.whole (output.getD e.always)).bind (Clause.toTree traits .arrays) =
        .ok t.withoutIds := by
  have hstandard := h.standardMember_eq
  cases h with
  | @group _ negated j children id hnil hjunction hdistinct hchildren =>
    rw [Node.withoutIds_group]
    by_cases hne : children = []
    -- nothing is written for an empty root, which stands for `always`
    · subst hne
      obtain rfl : negated = false := (hnil rfl).2
      obtain rfl : j = .and := hjunction (by simp)
      exact ⟨none, run_of_writeNode hstandard (Writer.writeNode_nil rfl []), e.blank⟩
    · obtain ⟨outs, head, cs, houts, hwrites, hreads, hbuilds⟩ :=
        e.exists_members hne fun child hc => e.returns (hchildren child hc)
      obtain ⟨out, c, hcombine, hempty, hwhole, hconstant, hroot⟩ :=
        e.root hchildren hdistinct hbuilds hreads
      refine ⟨some out, run_of_writeNode hstandard
        (Writer.writeNode_group rfl hwrites houts hcombine hempty), ?_⟩
      rw [Option.getD_some, hwhole]
      exact Clause.toTree_join hconstant hroot hbuilds fun hlt => hjunction (by simpa using hlt)

end Echo

/-! ### A tree for every dialect -/

/-- A text match, and the negation of a range and a membership among fields. -/
def Node.specimen : Node :=
  .group (.text Junction.or.name) { id := .text "root" }
    [.rule { Rule.ofSource .value "name" .contains (.text "50%") with id := .text "match" },
      .group (.text Junction.and.name) { negated := true, id := .text "inner" }
        [.rule { Rule.ofSource .value "age" .between (.list [.int 18, .int 65]) with
            id := .text "range" },
          .rule { Rule.ofSource .field "rank" .notIn (.list [.text "grade", .text "level"]) with
            id := .text "others" }]]

/-- It is canonical where its names are names and two members are told apart. -/
theorem Node.canonical_specimen {d : Repertoire}
    (hnames : ∀ name ∈ ["name", "age", "rank"], d.IsName name)
    (hlisted : ∀ name ∈ ["grade", "level"], d.IsListed name)
    (hmatch : d.IsMatch .contains "50%")
    (hdistinct : ∀ {isRoot negated j first second}, (negated = false → isRoot = true) →
      d.IsDistinct isRoot negated j [first, second]) : Node.specimen.Canonical d true := by
  have hrange : d.Takes .between .value (.list [.int 18, .int 65]) := .range rfl (.int 18) (.int 65)
  have hothers : d.Takes .notIn .field (.list [.text "grade", .text "level"]) := by
    refine .membership rfl (List.cons_ne_nil _ _) (List.forall_mem_cons.mpr ⟨?_, ?_⟩)
    · exact .field (hlisted _ (by simp))
    · exact List.forall_mem_singleton.mpr (.field (hlisted _ (by simp)))
  refine .group (.text "root") (fun h => by cases h) (fun h => absurd h (by simp))
    (hdistinct fun _ => rfl) (List.forall_mem_cons.mpr ⟨?_, List.forall_mem_singleton.mpr ?_⟩)
  · exact .rule (.intro (.text "match") (hnames _ (by simp)) (.textMatch rfl (.text hmatch)))
  · refine .group (.text "inner") (fun h => by cases h) (fun _ => rfl) (hdistinct (by simp))
      (List.forall_mem_cons.mpr ⟨?_, List.forall_mem_singleton.mpr ?_⟩)
    · exact .rule (.intro (.text "range") (hnames _ (by simp)) hrange)
    · exact .rule (.intro (.text "others") (hnames _ (by simp)) hothers)

theorem Node.isTold_pair {isRoot negated : Bool} {j : Junction} {first second : Node}
    (h : negated = false → isRoot = true) : Node.IsTold isRoot negated j [first, second] := by
  intro hnegated
  rw [h hnegated, if_pos rfl]
  simp [IsLoneNegation]

/-! ### Outputs that are texts -/

section
open Source
variable {S P : Type}

/-- An output is a text that stands for a clause. -/
def ReadsText (g : Grammar S P) (m : Meaning P) (out : Value) (c : Clause) : Prop :=
  ∃ s, out = .text s ∧ Stands g m s.toList c

variable {g : Grammar S P} {m : Meaning P}

/-- Outputs that are texts, one by one. -/
theorem exists_texts {outs : List Value} {cs : List Clause}
    (h : List.Forall₂ (ReadsText g m) outs cs) :
    ∃ ss, Value.texts outs = .ok ss ∧
      List.Forall₂ (Stands g m) (ss.map String.toList) cs := by
  suffices hss : ∃ ss : List String, outs = ss.map .text ∧
      List.Forall₂ (Stands g m) (ss.map String.toList) cs by
    obtain ⟨ss, rfl, hstands⟩ := hss
    exact ⟨ss, Value.texts_map ss, hstands⟩
  induction h with
  | nil => exact ⟨[], rfl, .nil⟩
  | cons hout _ ih =>
    obtain ⟨s, rfl, hs⟩ := hout
    obtain ⟨ss, rfl, hss⟩ := ih
    exact ⟨s :: ss, rfl, .cons hs hss⟩

/-- Texts that stand for clauses are not empty. -/
theorem ReadsText.isNothing {out : Value} {c : Clause} (h : ReadsText g m out c) :
    out.isNothing = false := by
  obtain ⟨s, rfl, hs⟩ := h
  obtain ⟨d, cs, hd, -⟩ := hs.starts
  have hne : s ≠ "" := by rintro rfl; cases hd
  simp [Value.isNothing, hne]

end
end RuleTree
