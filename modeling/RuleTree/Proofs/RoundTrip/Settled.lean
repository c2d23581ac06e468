import RuleTree.Proofs.WrittenNames

/-! # JsonLogic settles

A tree of any shape is not what is read back of its JsonLogic rule: disabled nodes, rules
without operands and groups without members are gone, operators have their own names,
equality with null is a null check, items are trimmed lists, and a negated group that is all
there is has become the root.  None of that happens twice.  What is read back is given back
from then on (`Query.reread_settles`), if the values of the rules are flat.
-/
namespace RuleTree
namespace JsonLogic
open Clause

/-! ### Rules -/

/-- A rule that comes back as it is. -/
structure IsSettledRule (r : Rule) : Prop where
  enabled : r.disabled = false
  flat : r.value.isFlat = true
  returns : ∃ op, r.operator? = some op ∧ returned? op r = some r

section
variable {op : Operator} {name : String} {v : Value} {r r' : Rule}

theorem isSettledRule_of_takes {source : ValueSource} (h : repertoire.Takes op source v) :
    IsSettledRule (Rule.ofSource source name op v) :=
  ⟨rfl, isFlat_of_takes h, op, Rule.operator?_ofSource source name op v .null,
    returned?_of_takes h .null⟩

theorem isSettledRule_nullCheck (hop : op.isNullCheck = true) :
    IsSettledRule (Rule.of name op .null) :=
  isSettledRule_of_takes (.nullCheck hop)

/-- Comparison with a literal is that or a null check. -/
theorem against_cases (op : Operator) (name : String) (v : Value) :
    comparison.against true name op v = Rule.of name op v ∨
      ∃ check, check.isNullCheck = true ∧
        comparison.against true name op v = Rule.of name check .null := by
  unfold comparison.against
  split
  · exact Or.inr ⟨.null, rfl, rfl⟩
  · exact Or.inr ⟨.notNull, rfl, rfl⟩
  · exact Or.inl rfl

/-- A literal is compared with as it is, be it a list, unless that is a null check. -/
theorem isSettledRule_against (hop : op.isComparison = true) (hflat : v.isFlat = true) :
    IsSettledRule (comparison.against true name op v) := by
  rcases against_cases op name v with hsame | ⟨check, hcheck, hnull⟩
  · have hreturned : returned? op (Rule.of name op v) =
        some (comparison.against true name op v) := by
      simp only [returned?, Operator.of_isComparison hop, Bool.false_eq_true, if_false]
      rfl
    rw [hsame] at hreturned ⊢
    exact ⟨rfl, hflat, op, Operator.ofValue?_toValue op, hreturned⟩
  · rw [hnull]
    exact isSettledRule_nullCheck hcheck

/-- A rule with one value that names another field comes back as it is. -/
theorem isSettledRule_ofFields (hsingle : op.isTextMatch = true ∨ op.isComparison = true)
    (other : String) : IsSettledRule (Rule.ofFields name op (.text other)) := by
  have htakes : repertoire.Takes op .field (.text other) := hsingle.elim
    (fun htext => .textMatch htext (.field trivial trivial))
    fun hcomparison => .comparison hcomparison (.field trivial)
  exact isSettledRule_of_takes htakes

/-- **Rules.**  What a rule with a flat value comes back as comes back as it is. -/
theorem isSettledRule_of_returned? (hflat : r.value.isFlat = true)
    (h : returned? op r = some r') : IsSettledRule r' := by
  unfold returned? at h
  dsimp only at h
  split at h
  · rename_i hnull
    obtain rfl := Option.some.inj h
    exact isSettledRule_nullCheck hnull
  split at h
  · rename_i hmember
    split at h
    · cases h
    · rename_i items hne
      obtain rfl := Option.some.inj h
      refine isSettledRule_of_takes (.membership hmember (by simpa using hne) fun w hw => ?_)
      obtain ⟨item, hitem, rfl⟩ := List.mem_map.mp hw
      exact isItem_readBack hflat hitem
  split at h
  · rename_i hrange
    obtain ⟨⟨low, high⟩, hbounds, rfl⟩ := Option.map_eq_some_iff.mp h
    obtain ⟨hlow, hhigh⟩ := Value.mem_toItems_of_bounds? hbounds
    exact isSettledRule_of_takes
      (.range hrange (isItem_readBack hflat hlow) (isItem_readBack hflat hhigh))
  rename_i hnull hmember hrange
  simp only [Bool.not_eq_true] at hnull hmember hrange
  have hsingle : op.isTextMatch = true ∨ op.isComparison = true := by
    cases htext : op.isTextMatch with
    | true => exact Or.inl rfl
    | false => exact Or.inr (Operator.isComparison_iff.mpr ⟨hnull, hmember, hrange, htext⟩)
  split at h
  · obtain rfl := Option.some.inj h
    exact isSettledRule_ofFields hsingle _
  split at h
  · rename_i htext
    obtain rfl := Option.some.inj h
    have htakes : repertoire.Takes op .value (.text r.value.display) :=
      .textMatch htext (.text trivial)
    exact isSettledRule_of_takes htakes
  · rename_i htext
    obtain rfl := Option.some.inj h
    exact isSettledRule_against (hsingle.resolve_left htext) hflat

end

/-! ### Clauses -/

/-- The clause becomes the node, and the node is written as the output, which is read as the
clause again. -/
structure Stays (c : Clause) (node : Node) (out : Value) : Prop where
  builds : Clause.Builds traits c node
  isStandard : node.IsStandard
  writes : ∀ path, writer.writeNode (.usual .jsonlogic) none path node = pure (some out)
  reads : Reads .never out c

/-- A clause that stays what it is when it is written and read again. -/
def IsSettled (c : Clause) : Prop := ∃ node out, Stays c node out

theorem isSettled_rule {r : Rule} (h : IsSettledRule r) : IsSettled (.rule r) := by
  obtain ⟨henabled, hflat, op, hop, hreturned⟩ := h
  have hback := writeRule_returned .never hop hflat
  rw [hreturned] at hback
  obtain ⟨out, hout, hreads⟩ := hback
  refine ⟨.rule r, out, Clause.builds_rule r, .rule r, fun path => ?_, hreads⟩
  have hwrite : ∀ context, writer.write (.usual .jsonlogic) r context = pure out := by
    intro context
    simp only [writer, hout]
    rfl
  rw [Writer.writeNode_rule (Writer.canExpress_of_ne_qdrant (by decide) hop) henabled hwrite path,
    if_neg (by rw [show writer.isEmpty out = false from hreads.isEmptyOutput]; simp)]

/-- Clauses that stay do so in a row. -/
theorem exists_stays {cs : List Clause} (h : ∀ c ∈ cs, IsSettled c) :
    ∃ nodes outs, List.Forall₂ (Clause.Builds traits) cs nodes ∧
      (∀ node ∈ nodes, node.IsStandard) ∧
      List.Forall₂ (fun node out => ∀ path, path ≠ [] →
        writer.writeNode (.usual .jsonlogic) none path node = pure (some out)) nodes outs ∧
      List.Forall₂ (Reads .never) outs cs := by
  induction cs with
  | nil => exact ⟨[], [], .nil, by simp, .nil, .nil⟩
  | cons c cs ih =>
    obtain ⟨⟨node, out, hc⟩, hcs⟩ := List.forall_mem_cons.mp h
    obtain ⟨nodes, outs, hbuilds, hstandard, hwrites, hreads⟩ := ih hcs
    exact ⟨node :: nodes, out :: outs, .cons hc.builds hbuilds,
      List.forall_mem_cons.mpr ⟨hc.isStandard, hstandard⟩,
      .cons (fun path _ => hc.writes path) hwrites, .cons hc.reads hreads⟩

/-- The junction of a single clause is lost, and does not matter. -/
theorem exists_junction_of_length (j : Junction) (negated : Bool) (head : Clause)
    (cs : List Clause) : ∃ j', (cs.length + 1 < 2 → j' = .and) ∧
      join j negated (head :: cs) = join j' negated (head :: cs) := by
  cases cs with
  | nil => exact ⟨.and, fun _ => rfl, rfl⟩
  | cons => exact ⟨j, fun h => absurd h (by simp), rfl⟩

/-- **Groups.**  The group of clauses that stay what they are stays what it is. -/
theorem isSettled_join (j : Junction) (negated : Bool) {head : Clause} {cs : List Clause}
    (h : ∀ c ∈ head :: cs, IsSettled c) : IsSettled (join j negated (head :: cs)) := by
  obtain ⟨j, hj, hsame⟩ := exists_junction_of_length j negated head cs
  rw [hsame]
  obtain ⟨nodes, outs, hbuilds, hstandard, hwrites, hreads⟩ := exists_stays h
  obtain ⟨out, hout, hread⟩ := exists_joinGroup j negated hreads
  have hlength : nodes.length < 2 → j = .and := fun hlt =>
    hj (by rwa [← hbuilds.length_eq, List.length_cons] at hlt)
  have hne : outs ≠ [] := fun he => by
    have hlength := hreads.length_eq
    simp [he] at hlength
  exact ⟨_, out, Clause.Builds.join hbuilds hlength rfl, .group hstandard,
    fun path => Writer.writeNode_group rfl hwrites hne hout hread.isEmptyOutput, hread⟩

/-! ### Roots -/

theorem exists_interleaved_of_toGroup {c : Clause} {m : Node}
    (h : toGroup traits .arrays c = .ok m) : ∃ flags items, m = .interleaved flags items := by
  unfold toGroup at h
  split at h
  · obtain ⟨_, -, h⟩ := Result.bind_eq_ok h
    obtain ⟨first, -, h⟩ := Result.bind_eq_ok h
    obtain ⟨turns, -, h⟩ := Result.bind_eq_ok h
    exact ⟨_, _, (Except.ok.inj h).symm⟩
  · obtain ⟨_, -, h⟩ := Result.bind_eq_ok h
    exact ⟨_, _, (Except.ok.inj h).symm⟩
  · obtain ⟨_, -, h⟩ := Result.bind_eq_ok h
    obtain ⟨member, -, h⟩ := Result.bind_eq_ok h
    exact ⟨_, _, (Except.ok.inj h).symm⟩

/-- A group is at the root what it is as a member. -/
theorem toGroup_eq_toMember {c : Clause} (h : c.isNegation = true ∨
    ∃ j negated head cs, c = join j negated (head :: cs)) :
    toGroup traits .arrays c = toMember traits .arrays 0 c := by
  rcases h with hnegation | ⟨j, negated, head, cs, rfl⟩
  · cases c with
    | rule | constant => cases hnegation
    | empty => rfl
    | group => rfl
  · rfl

/-- A negated group is no group around another. -/
theorem unwrapRoot_of_isNegation {c : Clause} (h : c.isNegation = true) :
    unwrapRoot traits c = c := by
  cases c with
  | rule | constant => cases h
  | empty => rfl
  | group negated head tail =>
    obtain rfl : negated = true := h
    rfl

/-- The root is left as it is, or is the negated group that is all there is in it. -/
theorem unwrapRoot_cases (j : Junction) (negated : Bool) (head : Clause) (cs : List Clause) :
    unwrapRoot traits (join j negated (head :: cs)) = join j negated (head :: cs) ∨
      head.isNegation = true ∧ unwrapRoot traits (join j negated (head :: cs)) = head := by
  cases negated with
  | true => exact Or.inl rfl
  | false =>
    cases cs with
    | cons => cases head <;> exact Or.inl rfl
    | nil =>
      cases head with
      | rule | constant => exact Or.inl rfl
      | empty inner | group inner =>
        cases inner with
        | false => exact Or.inl rfl
        | true => exact Or.inr ⟨rfl, rfl⟩

/-- What stays at a root is read as its node there. -/
theorem toTree_of_stays {root c : Clause} {node : Node} {out : Value} (h : Stays c node out)
    (hgroup : toGroup traits .arrays c = toMember traits .arrays 0 c)
    (hconstant : root.isConstant = false) (hroot : unwrapRoot traits root = c) :
    toTree traits .arrays (some root) = .ok node ∧
      ∃ combinator flags children, node = .group combinator flags children := by
  obtain ⟨m, hm, -, hnode⟩ := h.builds.member 0
  rw [← hgroup] at hm
  obtain ⟨flags, items, rfl⟩ := exists_interleaved_of_toGroup hm
  have hstandard : Node.toStandard (.interleaved flags items) = .ok node := hnode
  refine ⟨?_, Node.exists_group_of_standardRoot (t := .interleaved flags items) hstandard⟩
  simp only [toTree, hconstant, Bool.false_eq_true, if_false, hroot, hm]
  exact congrArg (· >>= _) hstandard

/-- **Roots.**  A group of clauses that stay what they are is read as a tree that stays what
it is. -/
theorem exists_settledRoot (j : Junction) (negated : Bool) {head : Clause} {cs : List Clause}
    (h : ∀ c ∈ head :: cs, IsSettled c) :
    ∃ c node out, Stays c node out ∧
      toTree traits .arrays (some (join j negated (head :: cs))) = .ok node ∧
      toTree traits .arrays (some c) = .ok node ∧
      ∃ combinator flags children, node = .group combinator flags children := by
  obtain ⟨node, out, hwhole⟩ := isSettled_join j negated h
  have hconstant := hwhole.builds.isConstant_eq_false
  rcases unwrapRoot_cases j negated head cs with hsame | ⟨hnegation, hinner⟩
  · obtain ⟨htree, hshape⟩ := toTree_of_stays hwhole
      (toGroup_eq_toMember (Or.inr ⟨j, negated, head, cs, rfl⟩)) hconstant hsame
    exact ⟨_, node, out, hwhole, htree, htree, hshape⟩
  · obtain ⟨inner, out, hhead⟩ := h head List.mem_cons_self
    have hgroup := toGroup_eq_toMember (Or.inl hnegation)
    obtain ⟨htree, hshape⟩ := toTree_of_stays hhead hgroup hconstant hinner
    obtain ⟨hagain, -⟩ := toTree_of_stays hhead hgroup hhead.builds.isConstant_eq_false
      (unwrapRoot_of_isNegation hnegation)
    exact ⟨head, inner, out, hhead, htree, hagain, hshape⟩

/-! ### Outputs -/

/-- An output that is read as a clause that stays what it is. -/
def IsSettledPart (out : Value) : Prop := ∃ c, Reads .never out c ∧ IsSettled c

/-- An output that is read as a group of such clauses. -/
def IsSettledWhole (out : Value) : Prop :=
  ∃ j negated head cs, Reads .never out (join j negated (head :: cs)) ∧
    ∀ c ∈ head :: cs, IsSettled c

/-- Outputs are joined to groups of what they are read as. -/
theorem isSettledWhole_joinGroup {outs : List Value} {combinator : Value} {negated : Bool}
    {out : Value} (hparts : ∀ out ∈ outs, IsSettledPart out) (hne : outs ≠ [])
    (h : joinGroup combinator negated outs = .ok out) : IsSettledWhole out := by
  obtain ⟨j, hj⟩ := exists_junction h
  obtain ⟨head, cs, hreads, hcs⟩ := exists_row hparts hne
  obtain ⟨out', hout, hread⟩ := exists_joinGroup j negated hreads
  obtain rfl := Except.ok.inj (hout.symm.trans hj)
  exact ⟨j, negated, head, cs, hread, hcs⟩

/-- Rules with flat values are written as outputs that settle. -/
theorem isSettledPart_of_writeRule {r : Rule} (hflat : r.value.isFlat = true) {path : Path}
    {s s' : Bindings} {out : Value}
    (hwrite : writer.writeRule (.usual .jsonlogic) path r s = .ok (out, s'))
    (hempty : isEmptyOutput out = false) : IsSettledPart out := by
  rw [Writer.writeRule_apply _ rfl] at hwrite
  obtain ⟨field, hfield, hwrite⟩ := Result.bind_eq_ok hwrite
  obtain rfl : none = field := Except.ok.inj hfield
  split at hwrite
  case isFalse => cases hwrite
  case isTrue hexpress =>
    obtain ⟨plan, hplan, hwrite⟩ := Result.bind_eq_ok hwrite
    obtain rfl : .usual .jsonlogic = plan := Except.ok.inj hplan
    have hout : writeRule (.usual .jsonlogic) r = .ok out := (Writer.lift_apply_eq_ok hwrite).1
    cases hop : r.operator? with
    | none =>
      rw [Writer.canExpress, hop] at hexpress
      cases hexpress
    | some op =>
      have hback := writeRule_returned .never hop hflat
      cases hreturned : returned? op r with
      | none =>
        rw [hreturned] at hback
        obtain rfl := Except.ok.inj (hback.symm.trans hout)
        cases hempty
      | some r' =>
        rw [hreturned] at hback
        obtain ⟨out', hout', hread⟩ := hback
        obtain rfl := Except.ok.inj (hout'.symm.trans hout)
        exact ⟨.rule r', hread, isSettled_rule (isSettledRule_of_returned? hflat hreturned)⟩

theorem yields : writer.Yields (.usual .jsonlogic) (fun r => r.value.isFlat = true)
    (fun _ => True) IsSettledPart IsSettledWhole where
  rule hflat hwrite hempty := isSettledPart_of_writeRule hflat hwrite hempty
  group hparts hne _ h := by
    obtain ⟨j, negated, head, cs, hread, hcs⟩ := isSettledWhole_joinGroup hparts hne h
    exact ⟨_, hread, isSettled_join j negated hcs⟩
  root hparts hne _ h := isSettledWhole_joinGroup hparts hne h

/-- What is written of a tree with flat values, if anything is, settles. -/
theorem isSettledWhole_of_run {t : Node} (ht : t.IsTree)
    (hflat : ∀ r ∈ t.rules, r.value.isFlat = true) {output : Option Value} {bindings : Bindings}
    (h : writer.run (.usual .jsonlogic) t = .ok (output, bindings)) :
    ∀ out ∈ output, IsSettledWhole out := by
  have hrun := h
  rw [Writer.run_of_not_validate _ _ rfl] at hrun
  obtain ⟨root, hroot, -⟩ := Result.bind_eq_ok hrun
  have hstandard := ht.isStandard_of_standardRoot hroot
  refine yields.run ht hroot rfl (fun _ _ => trivial) (fun e he => hflat e.2 ?_) h
  rw [Node.liveRules_eq hstandard] at he
  rw [← Node.rules_of_standardRoot hroot]
  exact Node.mem_rules_of_mem_liveFrom hstandard he

theorem read_of_reads {out : Value} {c : Clause} (h : Reads .never out c) :
    read .arrays out = toTree traits .arrays (some c) := by
  rw [read, show clause? .arrays out = .ok (some c) from h.clause?]
  rfl

end JsonLogic

/-! ### Trees -/

namespace Query

/-- Writing as JsonLogic and reading again is running the writer and reading its output. -/
theorem reread_jsonlogic_eq {t : Node} (ht : t.IsTree) :
    reread "jsonlogic" t = JsonLogic.writer.run (.usual .jsonlogic) t >>= fun output =>
      JsonLogic.read .arrays (output.1.getD (.bool false)) := by
  have hplan : ({ format := .text "jsonlogic" } : FormatOptions).resolve =
      .ok (.usual .jsonlogic) := rfl
  have hformat : format { format := .text "jsonlogic" } t =
      (JsonLogic.writer.run (.usual .jsonlogic) t).map fun output =>
        .value (output.1.getD (.bool false)) := by
    rw [format_eq_write hplan rfl ht, write, JsonLogic.format, Writer.within_none]
    cases JsonLogic.writer.run (.usual .jsonlogic) t <;> rfl
  show (format { format := .text "jsonlogic" } t >>= _) = _
  rw [hformat]
  cases JsonLogic.writer.run (.usual .jsonlogic) t with
  | error e => rfl
  | ok output => rfl

/-- **No drift.**  A tree whose rules have flat values, of any shape, is written as JsonLogic
and read back as a tree that is given back as it is from then on. -/
theorem reread_settles {t n : Node} (ht : t.IsTree) (hflat : ∀ r ∈ t.rules, r.value.isFlat = true)
    (h : reread "jsonlogic" t = .ok n) : reread "jsonlogic" n = .ok n := by
  rw [reread_jsonlogic_eq ht] at h
  obtain ⟨⟨output, bindings⟩, hrun, hread⟩ := Result.bind_eq_ok h
  have hsettled := JsonLogic.isSettledWhole_of_run ht hflat hrun
  cases output with
  | none =>
    -- nothing is written but false, the empty query, which comes back as it is
    obtain rfl : .group (.text "and") {} [] = n := Except.ok.inj hread
    rfl
  | some out =>
    obtain ⟨j, negated, head, cs, hreads, hcs⟩ := hsettled out rfl
    obtain ⟨c, node, again, hstays, htree, hagain, combinator, flags, children, rfl⟩ :=
      JsonLogic.exists_settledRoot j negated hcs
    have hsame := JsonLogic.read_of_reads hreads ▸ hread
    obtain rfl := Except.ok.inj (htree.symm.trans hsame)
    have hrun : JsonLogic.writer.run (.usual .jsonlogic) (.group combinator flags children) =
        .ok (some again, {}) :=
      Echo.run_of_writeNode hstays.isStandard.standardMember_eq (hstays.writes [])
    rw [reread_jsonlogic_eq hstays.isStandard.isTree, hrun]
    exact (JsonLogic.read_of_reads hstays.reads).trans hagain

/-- A disabled rule, and the complement of: that `a` is not among `x` and `y`, or that `b` is
equal to null and `c` is among nothing. -/
def unsettledSpecimen : Node :=
  .group (.text "and") {}
    [.rule { Rule.of "z" .eq (.int 1) with disabled := true },
      .interleaved { negated := true, id := .text "inner" }
        [.rule { field := .text "a", operator := .text "NotIN", value := .text " x ,y," },
          .bare (.text "OR"),
          .interleaved {}
            [.rule (Rule.of "b" .eq .null), .bare (.text "and"), .rule (.of "c" .isIn (.list []))]]]

/-- What it comes back as. -/
def settledSpecimen : Node :=
  .group (.text "or") { negated := true }
    [.rule (.of "a" .notIn (.list [.text "x", .text "y"])),
      .group (.text "and") {} [.rule (.of "b" .null .null)]]

theorem reread_settles_specimen :
    unsettledSpecimen.IsTree ∧ (∀ r ∈ unsettledSpecimen.rules, r.value.isFlat = true) ∧
      reread "jsonlogic" unsettledSpecimen = .ok settledSpecimen ∧
      reread "jsonlogic" settledSpecimen = .ok settledSpecimen := by
  have htree : unsettledSpecimen.IsTree := by
    have hinner : ∀ r r' : Rule,
        (Node.interleaved {} [.rule r, .bare (.text "and"), .rule r']).IsTree := fun r r' =>
      .interleaved (by simp [Node.checkTurns, Node.checkTurnsFrom])
        (List.forall_mem_cons.mpr ⟨.rule r, List.forall_mem_singleton.mpr (.rule r')⟩)
    refine .group (List.forall_mem_cons.mpr ⟨.rule _, List.forall_mem_singleton.mpr ?_⟩)
    exact .interleaved rfl
      (List.forall_mem_cons.mpr ⟨.rule _, List.forall_mem_singleton.mpr (hinner _ _)⟩)
  have hflat : ∀ r ∈ unsettledSpecimen.rules, r.value.isFlat = true :=
    List.all_eq_true.mp (show unsettledSpecimen.rules.all (·.value.isFlat) = true from rfl)
  have hback : reread "jsonlogic" unsettledSpecimen = .ok settledSpecimen := rfl
  exact ⟨htree, hflat, hback, reread_settles htree hflat hback⟩

end Query
end RuleTree
