import RuleTree.Proofs.Endings
import RuleTree.Proofs.Reach

/-! # Judgements of trees

What a validator says of a node depends on the node alone: `Validator.verdict` goes through
a node without paths and without entries.  A validation has an entry for every node that it
reaches, with the verdict on it, and fails only where a rule that it reaches cannot be
judged (`Validator.ends_validateNode_verdict`).  So its entries cover the tree, and what is
invalid spreads to the root as far as the validator is strict (`Validator.validate_covers`).
-/
namespace RuleTree

/-- The members that count for a group: those that are enabled. -/
def Node.enabledMembers (nodes : List Node) : List Node :=
  nodes.filter fun node => !node.isCombinator && !node.isDisabled

theorem Node.enabledMembers_cons (node : Node) (nodes : List Node) :
    enabledMembers (node :: nodes) =
      if node.isCombinator || node.isDisabled then enabledMembers nodes
      else node :: enabledMembers nodes := by
  rw [enabledMembers, enabledMembers, List.filter_cons]
  cases node.isCombinator <;> cases node.isDisabled <;> rfl

namespace Validator

/-- The validity of a rule that can be judged. -/
def ruleVerdict (v : Validator) (r : Rule) : Validity :=
  match v.validateRule r with
  | .ok validity => validity
  | .error _ => .ok

mutual
/-- The validity of a node. -/
def verdict (v : Validator) : Node → Validity
  | .rule r => if r.disabled then .ok else v.ruleVerdict r
  | .group _ flags children =>
    if flags.disabled then .ok
    else v.groupValidity ⟨(Node.enabledMembers children).length, allValid v children, []⟩
  | .interleaved flags items =>
    if flags.disabled then .ok
    else v.groupValidity ⟨(Node.enabledMembers items).length, allValid v items, []⟩
  | .bare _ => .ok

/-- Whether the enabled ones of the members of a group are valid. -/
def allValid (v : Validator) : List Node → Bool
  | [] => true
  | node :: rest =>
    (node.isCombinator || node.isDisabled || (verdict v node).valid) && allValid v rest
end

/-- Whether a validator can judge a node by itself: a rule by what is configured, and any
group. -/
def CanJudge (v : Validator) : Node → Prop
  | .rule r => r.disabled = true ∨ ∃ validity, v.validateRule r = .ok validity
  | .bare _ => False
  | _ => True

/-- The entries of nodes with their paths. -/
def entriesOf (v : Validator) (nodes : List (Path × Node)) : List (Path × Validity) :=
  nodes.map fun e => (e.1, v.verdict e.2)

section
variable {v : Validator} {t : Node}

theorem verdict_of_isDisabled (h : t.isDisabled = true) : v.verdict t = .ok := by
  cases t with
  | bare => cases h
  | rule r =>
    rw [verdict]
    exact if_pos h
  | group | interleaved =>
    rw [verdict]
    exact if_pos h

theorem verdict_of_isGroup (hgroup : t.isGroup = true) (henabled : t.isDisabled = false) :
    v.verdict t =
      v.groupValidity ⟨(Node.enabledMembers t.members).length, v.allValid t.members, []⟩ := by
  have hflag : ¬t.isDisabled = true := by simp [henabled]
  cases t with
  | rule | bare => cases hgroup
  | group | interleaved =>
    rw [verdict]
    exact if_neg hflag

theorem allValid_iff {nodes : List Node} :
    v.allValid nodes = true ↔
      ∀ node ∈ Node.enabledMembers nodes, (v.verdict node).valid = true := by
  induction nodes with
  | nil => simp [allValid, Node.enabledMembers]
  | cons node nodes ih =>
    rw [allValid, Bool.and_eq_true, ih, Node.enabledMembers_cons]
    cases node.isCombinator <;> cases node.isDisabled <;> simp

/-- Members are judged one by one, combinators are passed over. -/
theorem validateMembers_cons (v : Validator) (path : Path) (position : Nat) (members : Members)
    (node : Node) (rest : List Node) :
    v.validateMembers path position members (node :: rest) =
      if node.isCombinator then v.validateMembers path (position + 1) members rest
      else v.validateNode (path ++ [position]) node >>= fun judged =>
        v.validateMembers path (position + 1)
          (if node.isDisabled then { members with entries := members.entries ++ judged.2 }
            else ⟨members.enabled + 1, members.valid && judged.1.valid,
              members.entries ++ judged.2⟩)
          rest := by
  cases node with
  | bare value => cases value <;> rw [validateMembers] <;> simp [Node.isCombinator]
  | rule | group | interleaved => rw [validateMembers] <;> simp [Node.isCombinator]

theorem validateNode_of_isDisabled (path : Path) (h : t.isDisabled = true) :
    v.validateNode path t = .ok (.ok, [(path, .ok)]) := by
  cases t with
  | bare => cases h
  | rule r =>
    rw [validateNode, if_pos (show r.disabled = true from h)]
    rfl
  | group | interleaved =>
    rw [validateNode]
    exact if_pos h

theorem validateNode_of_isGroup (path : Path) (hgroup : t.isGroup = true)
    (henabled : t.isDisabled = false) :
    v.validateNode path t = (do
      let members ← v.validateMembers path 0 {} t.members
      return (v.groupValidity members, members.entries ++ [(path, v.groupValidity members)])) := by
  have hflag : ¬t.isDisabled = true := by simp [henabled]
  cases t with
  | rule | bare => cases hgroup
  | group | interleaved =>
    rw [validateNode]
    exact if_neg hflag

theorem canJudge_of_isDisabled (h : t.isDisabled = true) : v.CanJudge t := by
  cases t with
  | bare => cases h
  | rule r => exact .inl h
  | group | interleaved => trivial

theorem canJudge_of_isGroup (h : t.isGroup = true) : v.CanJudge t := by
  cases t with
  | rule | bare => cases h
  | group | interleaved => trivial

/-- An enabled rule is judged by itself, and a bare node not at all. -/
theorem ends_validateNode_of_not_isGroup (path : Path) (hgroup : t.isGroup = false)
    (henabled : t.isDisabled = false) :
    (v.validateNode path t).Ends (fun _ => ¬v.CanJudge t)
      fun judged => judged = (v.verdict t, [(path, v.verdict t)]) ∧ v.CanJudge t := by
  cases t with
  | group | interleaved => cases hgroup
  | bare value => exact Result.ends_error nofun
  | rule r =>
    have hflag : r.disabled = false := henabled
    rw [validateNode, verdict, ruleVerdict, CanJudge, hflag]
    cases v.validateRule r with
    | error e => exact Result.ends_error (by simp)
    | ok validity => exact Result.ends_ok ⟨rfl, .inr ⟨validity, rfl⟩⟩

/-- Members whose verdicts are found one by one have them in a row. -/
theorem ends_validateMembers_verdict {path : Path} {nodes : List Node}
    (ih : ∀ node ∈ nodes, ∀ path, (v.validateNode path node).Ends
      (fun _ => ∃ e ∈ node.reachedFrom path, ¬v.CanJudge e.2)
      fun judged => judged = (v.verdict node, v.entriesOf (node.reachedFrom path)) ∧
        ∀ e ∈ node.reachedFrom path, v.CanJudge e.2) (position : Nat) (members : Members) :
    (v.validateMembers path position members nodes).Ends
      (fun _ => ∃ e ∈ Node.reachedMembers path position nodes, ¬v.CanJudge e.2)
      fun result => result = ⟨members.enabled + (Node.enabledMembers nodes).length,
          members.valid && v.allValid nodes,
          members.entries ++ v.entriesOf (Node.reachedMembers path position nodes)⟩ ∧
        ∀ e ∈ Node.reachedMembers path position nodes, v.CanJudge e.2 := by
  induction nodes generalizing position members with
  | nil =>
    rw [validateMembers, Node.reachedMembers]
    refine Result.ends_ok ⟨?_, by simp⟩
    simp [Node.enabledMembers, allValid, entriesOf]
  | cons node nodes ihn =>
    obtain ⟨ihnode, ihrest⟩ := List.forall_mem_cons.mp ih
    rw [validateMembers_cons, Node.reachedMembers, Node.enabledMembers_cons, allValid]
    cases hcombinator : node.isCombinator with
    | true => simpa using ihn ihrest (position + 1) members
    | false =>
      simp only [Bool.false_eq_true, if_false, Bool.false_or]
      refine ((ihnode (path ++ [position])).mono (fun _ herror => ?_) fun _ h => h).bind
        fun judged hjudged => ?_
      · obtain ⟨e, he, hno⟩ := herror
        exact ⟨e, List.mem_append_left _ he, hno⟩
      obtain ⟨rfl, hfirst⟩ := hjudged
      refine (ihn ihrest (position + 1) _).mono (fun _ herror => ?_) fun result hresult => ?_
      · obtain ⟨e, he, hno⟩ := herror
        exact ⟨e, List.mem_append_right _ he, hno⟩
      obtain ⟨rfl, hrest⟩ := hresult
      refine ⟨?_, List.forall_mem_append.mpr ⟨hfirst, hrest⟩⟩
      cases node.isDisabled with
      | true => simp [entriesOf]
      | false => simp [entriesOf, Nat.add_assoc, Nat.add_comm 1, Bool.and_assoc]

/-- **Verdicts.**  A validation has an entry for every node that it reaches, with the
verdict on it, and fails only if it reaches a node that cannot be judged. -/
theorem ends_validateNode_verdict (v : Validator) (path : Path) (t : Node) :
    (v.validateNode path t).Ends (fun _ => ∃ e ∈ t.reachedFrom path, ¬v.CanJudge e.2)
      fun judged => judged = (v.verdict t, v.entriesOf (t.reachedFrom path)) ∧
        ∀ e ∈ t.reachedFrom path, v.CanJudge e.2 := by
  induction t using Node.induct_members generalizing path with
  | step t ih =>
    rw [Node.reachedFrom_eq]
    cases hdisabled : t.isDisabled with
    | true =>
      rw [validateNode_of_isDisabled path hdisabled, entriesOf]
      refine Result.ends_ok ⟨?_, by simpa using canJudge_of_isDisabled hdisabled⟩
      simp [verdict_of_isDisabled hdisabled]
    | false =>
      rw [if_neg Bool.false_ne_true]
      cases hgroup : t.isGroup with
      | true =>
        rw [validateNode_of_isGroup path hgroup hdisabled]
        refine ((ends_validateMembers_verdict ih 0 {}).mono (fun _ herror => ?_) fun _ h => h).bind
          fun members hmembers => ?_
        · obtain ⟨e, he, hno⟩ := herror
          exact ⟨e, List.mem_append_left _ he, hno⟩
        obtain ⟨rfl, hall⟩ := hmembers
        have hverdict (entries : List (Path × Validity)) :
            v.groupValidity ⟨(Node.enabledMembers t.members).length, v.allValid t.members,
              entries⟩ = v.verdict t := by
          rw [verdict_of_isGroup hgroup hdisabled]
          rfl
        refine Result.ends_ok ⟨?_, List.forall_mem_append.mpr ⟨hall, ?_⟩⟩
        · simp [hverdict, entriesOf]
        · simpa using canJudge_of_isGroup hgroup
      | false =>
        -- a node without members is reached alone
        have hnone : t.members = [] := by cases t <;> first | rfl | cases hgroup
        rw [hnone, Node.reachedMembers]
        refine (ends_validateNode_of_not_isGroup path hgroup hdisabled).mono (fun _ hno => ?_)
          fun judged hjudged => ?_
        · exact ⟨_, List.mem_singleton.mpr rfl, hno⟩
        · exact ⟨hjudged.1, by simpa using hjudged.2⟩

/-! ### Groups -/

/-- A group is invalid for want of enabled members, or for those that are not valid. -/
theorem valid_verdict_iff (hgroup : t.isGroup = true) (henabled : t.isDisabled = false) :
    (v.verdict t).valid = true ↔
      (v.allowEmptyGroups = true ∨ Node.enabledMembers t.members ≠ []) ∧
        (v.strict = true →
          ∀ node ∈ Node.enabledMembers t.members, (v.verdict node).valid = true) := by
  rw [verdict_of_isGroup hgroup henabled, groupValidity, Validity.ofReasons, ← allValid_iff]
  cases v.allowEmptyGroups <;> cases v.strict <;> cases v.allValid t.members <;>
    cases Node.enabledMembers t.members <;> simp

/-- What is invalid spreads to what it is reached from, if the validator is strict. -/
theorem invalid_of_mem_reachedFrom (hstrict : v.strict = true) {path : Path} {e : Path × Node}
    (he : e ∈ t.reachedFrom path) (hinvalid : (v.verdict e.2).valid = false) :
    (v.verdict t).valid = false := by
  induction t using Node.induct_members generalizing path with
  | step t ih =>
    rw [Node.reachedFrom_eq, List.mem_append, List.mem_singleton] at he
    rcases he with he | rfl
    · split at he
      · cases he
      rename_i henabled
      obtain ⟨i, node, hnode, hmember, he⟩ := Node.mem_reachedMembers_iff.mp he
      have hmem := List.mem_of_getElem? hnode
      have hbad : (v.verdict node).valid = false := ih node hmem he
      have hcounts : node ∈ Node.enabledMembers t.members := by
        refine List.mem_filter.mpr ⟨hmem, ?_⟩
        have hon : node.isDisabled = false := by
          by_contra hoff
          rw [verdict_of_isDisabled (by simpa using hoff)] at hbad
          cases hbad
        rw [hmember, hon]
        rfl
      have hgroup : t.isGroup = true := by
        cases t with
        | rule | bare => cases hmem
        | group | interleaved => rfl
      by_contra hvalid
      obtain ⟨-, hall⟩ :=
        (valid_verdict_iff hgroup (by simpa using henabled)).mp (by simpa using hvalid)
      rw [hall hstrict node hcounts] at hbad
      cases hbad
    · exact hinvalid

end

/-! ### Whole trees -/

/-- What the entries of a validation say of a tree. -/
structure Covers (v : Validator) (t : Node) (entries : List (Path × Validity)) : Prop where
  /-- There is one entry for each node of the walk below no disabled group. -/
  nodup : (entries.map Prod.fst).Nodup
  paths (path : Path) : path ∈ entries.map Prod.fst ↔
    (∃ node, (path, node) ∈ t.walk) ∧ ¬Node.IsBelowDisabled t.walk path
  /-- That of an enabled rule is what the rule is judged by itself. -/
  rule {path : Path} {r : Rule} {validity : Validity} : (path, .rule r) ∈ t.walk →
    r.disabled = false → (path, validity) ∈ entries → v.validateRule r = .ok validity
  disabled {path : Path} {node : Node} {validity : Validity} : (path, node) ∈ t.walk →
    node.isDisabled = true → (path, validity) ∈ entries → validity = .ok
  /-- A strict validator finds invalid whatever is above what is invalid. -/
  ancestors {path ancestor : Path} {validity validity' : Validity} : v.strict = true →
    (path, validity) ∈ entries → validity.valid = false →
      ancestor <+: path → (ancestor, validity') ∈ entries → validity'.valid = false
  root {validity : Validity} : v.strict = true → ([], validity) ∈ entries →
    (validity.valid = true ↔ ∀ entry ∈ entries, entry.2.valid = true)
  /-- One that is not strict finds a group invalid only for want of enabled members. -/
  groups {path : Path} {node : Node} {validity : Validity} : v.strict = false →
    (path, node) ∈ t.walk → node.isGroup = true → (path, validity) ∈ entries →
      (validity.valid = false ↔ node.isDisabled = false ∧ v.allowEmptyGroups = false ∧
        Node.enabledMembers node.members = [])

theorem covers_entriesOf (v : Validator) {t : Node}
    (hjudged : ∀ e ∈ t.reachedFrom [], v.CanJudge e.2) :
    v.Covers t (v.entriesOf (t.reachedFrom [])) := by
  have hpaths :
      (v.entriesOf (t.reachedFrom [])).map Prod.fst = (t.reachedFrom []).map Prod.fst := by
    simp [entriesOf]
  -- the entry of a path has the verdict on the one node of that path
  have hentry {path : Path} {validity : Validity}
      (h : (path, validity) ∈ v.entriesOf (t.reachedFrom [])) :
      ∃ node, (path, node) ∈ t.reachedFrom [] ∧ validity = v.verdict node := by
    obtain ⟨⟨q, node⟩, he, heq⟩ := List.mem_map.mp h
    obtain ⟨rfl, rfl⟩ := Prod.mk.inj heq
    exact ⟨node, he, rfl⟩
  have hverdict {path : Path} {node : Node} {validity : Validity} (hnode : (path, node) ∈ t.walk)
      (h : (path, validity) ∈ v.entriesOf (t.reachedFrom [])) :
      (path, node) ∈ t.reachedFrom [] ∧ validity = v.verdict node := by
    obtain ⟨node', hreached, rfl⟩ := hentry h
    obtain rfl := Node.eq_of_mem_walkFrom hnode (Node.mem_reachedFrom_iff.mp hreached).1
    exact ⟨hreached, rfl⟩
  have hroot : ([], t) ∈ t.walk := by
    rw [Node.walk, Node.walkFrom_eq]
    exact List.mem_cons_self
  refine ⟨?_, fun path => ?_, fun hnode henabled h => ?_, fun hnode hdisabled h => ?_,
    fun hstrict h hinvalid hextends h' => ?_, fun hstrict h => ?_,
    fun {path node validity} hstrict hnode hgroup h => ?_⟩
  · rw [hpaths]
    exact Node.nodup_reachedFrom [] t
  · rw [hpaths, List.mem_map]
    constructor
    · rintro ⟨⟨q, node⟩, he, rfl⟩
      obtain ⟨hwalk, hbelow⟩ := Node.mem_reachedFrom_iff.mp he
      exact ⟨⟨node, hwalk⟩, hbelow⟩
    · rintro ⟨⟨node, hwalk⟩, hbelow⟩
      exact ⟨(path, node), Node.mem_reachedFrom_iff.mpr ⟨hwalk, hbelow⟩, rfl⟩
  · obtain ⟨hreached, rfl⟩ := hverdict hnode h
    rcases hjudged _ hreached with hdisabled | ⟨validity, hvalidity⟩
    · rw [henabled] at hdisabled
      cases hdisabled
    · rw [verdict, henabled, if_neg Bool.false_ne_true, ruleVerdict, hvalidity]
  · obtain ⟨-, rfl⟩ := hverdict hnode h
    exact verdict_of_isDisabled hdisabled
  · obtain ⟨node, hreached, rfl⟩ := hentry h
    obtain ⟨above, hreached', rfl⟩ := hentry h'
    exact invalid_of_mem_reachedFrom hstrict
      (Node.mem_reachedFrom_of_prefix hreached' hreached hextends) hinvalid
  · obtain ⟨-, rfl⟩ := hverdict hroot h
    constructor
    · rintro hvalid ⟨path, validity⟩ hentries
      obtain ⟨node, hreached, rfl⟩ := hentry hentries
      by_contra hinvalid
      have hbad := invalid_of_mem_reachedFrom hstrict hreached (by simpa using hinvalid)
      rw [hvalid] at hbad
      cases hbad
    · exact fun hall => hall _ h
  · obtain ⟨-, rfl⟩ := hverdict hnode h
    cases hdisabled : node.isDisabled with
    | true => simp [verdict_of_isDisabled hdisabled, Validity.ok]
    | false =>
      have hvalid := valid_verdict_iff (v := v) hgroup hdisabled
      rw [← Bool.not_eq_true, hvalid]
      simp [hstrict]

/-- **Coverage.**  A validation fails only if a rule that lies below no disabled group
cannot be judged; else its entries cover the tree. -/
theorem validate_covers (v : Validator) (t : Node) :
    ((∃ entries, v.validate t = .ok entries) ↔
      ∀ e ∈ t.walk, ¬Node.IsBelowDisabled t.walk e.1 → v.CanJudge e.2) ∧
    ∀ entries, v.validate t = .ok entries → v.Covers t entries := by
  have hends := v.ends_validateNode_verdict [] t
  rw [validate]
  cases hnode : v.validateNode [] t with
  | error e =>
    rw [hnode] at hends
    obtain ⟨e, he, hno⟩ := hends
    obtain ⟨hwalk, hbelow⟩ := Node.mem_reachedFrom_iff.mp he
    exact ⟨⟨nofun, fun hall => absurd (hall e hwalk hbelow) hno⟩, nofun⟩
  | ok judged =>
    rw [hnode] at hends
    obtain ⟨rfl, hjudged⟩ := hends
    refine ⟨⟨fun _ e hwalk hbelow => ?_, fun _ => ⟨_, rfl⟩⟩, fun entries h => ?_⟩
    · exact hjudged e (Node.mem_reachedFrom_iff.mpr ⟨hwalk, hbelow⟩)
    · obtain rfl := Except.ok.inj h
      exact v.covers_entriesOf hjudged

/-- A rule without an operator in a row with a disabled group, in a group with a sound rule. -/
def coveredSpecimen : Node :=
  .group (.text "and") {}
    [.rule (.of "a" .eq (.int 1)),
      .interleaved {}
        [.interleaved { disabled := true } [.rule { field := .text "b", operator := .null }],
          .bare (.text "or"), .rule { field := .text "c", operator := .text "is" }]]

theorem validate_covers_specimen :
    ∃ entries, Validator.validate {} coveredSpecimen = .ok entries ∧
      entries.map (fun entry => (entry.1, entry.2.valid)) =
        [([0], true), ([1, 0], true), ([1, 2], false), ([1], false), ([], false)] ∧
      Covers {} coveredSpecimen entries := by
  obtain ⟨entries, hentries, hvalid⟩ :
      ∃ entries, Validator.validate {} coveredSpecimen = .ok entries ∧
        entries.map (fun entry => (entry.1, entry.2.valid)) =
          [([0], true), ([1, 0], true), ([1, 2], false), ([1], false), ([], false)] := ⟨_, rfl, rfl⟩
  exact ⟨entries, hentries, hvalid, (validate_covers {} coveredSpecimen).2 entries hentries⟩

end Validator
end RuleTree
