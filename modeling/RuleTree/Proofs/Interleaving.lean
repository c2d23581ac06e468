import RuleTree.Proofs.LetterCase
import RuleTree.Proofs.LiveRules

/-! # There and back between the two shapes

A standard tree that is put in the interleaved shape and back is the tree again, but for its
combinators: a group of several members has its own trimmed and in lower case, and any other
group has `and` (`Node.tidied`).  For the sequence of members with one combinator between them
is joined to one group of these members, whatever the combinator is.

The standard form of an interleaved tree is tidy already (`isTidy_of_standardMember`): where
members were joined by precedence their combinators had been trimmed and put in lower case, and
this changes nothing a second time.  So the way there and back leaves it as it is
(`toStandard_toInterleaved`).
-/
namespace RuleTree
namespace Node

mutual
/-- A standard tree with the combinators that it has after the way there and back. -/
def tidied : Node → Node
  | .group (.text name) flags children =>
    .group (.text (joinName name children.length)) flags (tidiedAll children)
  | node => node

/-- The nodes with tidied combinators. -/
def tidiedAll : List Node → List Node
  | [] => []
  | node :: rest => tidied node :: tidiedAll rest
end

theorem tidiedAll_eq_map (nodes : List Node) : tidiedAll nodes = nodes.map tidied := by
  induction nodes with
  | nil => rfl
  | cons node nodes ih => rw [tidiedAll, ih, List.map_cons]

theorem tidied_group (name : String) (flags : GroupFlags) (children : List Node) :
    tidied (.group (.text name) flags children) =
      .group (.text (joinName name children.length)) flags (children.map tidied) := by
  rw [tidied, tidiedAll_eq_map]

/-- A rule, or a standard group of such nodes that is joined by a text. -/
inductive IsNamed : Node → Prop where
  | rule (r : Rule) : IsNamed (.rule r)
  | group {name : String} {flags : GroupFlags} {children : List Node} :
      (∀ child ∈ children, IsNamed child) → IsNamed (.group (.text name) flags children)

/-- A rule, or an interleaved group of such nodes with combinators between them: there is no
standard group in it. -/
inductive IsInterleaved : Node → Prop where
  | rule (r : Rule) : IsInterleaved (.rule r)
  | group {flags : GroupFlags} {items : List Node} :
      (∀ item ∈ items, item.isCombinator = false → IsInterleaved item) →
      IsInterleaved (.interleaved flags items)

section
variable {t node head : Node} {tail : List (String × Node)} {flags : GroupFlags}

/-! ### The way there -/

/-- A member of a standard group as one of an interleaved group. -/
def interleavedMember : Node → Result Node
  | .group combinator flags children => toInterleaved (.group combinator flags children)
  | node => .ok node

theorem toInterleavedAll_cons (node : Node) (rest : List Node) :
    toInterleavedAll (node :: rest) = do
      let node ← interleavedMember node
      return node :: (← toInterleavedAll rest) := by
  cases node <;> simp [toInterleavedAll, interleavedMember] <;> rfl

/-- Members that come back one by one come back as a group. -/
theorem exists_members {children : List Node}
    (ih : ∀ child ∈ children, ∃ m, interleavedMember child = .ok m ∧ m.IsMember ∧
      m.IsInterleaved ∧ m.standardMember = .ok child.tidied) :
    ∃ ms, toInterleavedAll children = .ok ms ∧ (∀ m ∈ ms, m.IsMember) ∧
      (∀ m ∈ ms, m.IsInterleaved) ∧
      List.Forall₂ (fun m n => standardMember m = .ok n) ms (children.map tidied) := by
  induction children with
  | nil => exact ⟨[], rfl, by simp, by simp, .nil⟩
  | cons child children ihc =>
    obtain ⟨⟨m, hm, hmember, hinter, hback⟩, hrest⟩ := List.forall_mem_cons.mp ih
    obtain ⟨ms, hms, hmembers, hinters, hbacks⟩ := ihc hrest
    refine ⟨m :: ms, ?_, List.forall_mem_cons.mpr ⟨hmember, hmembers⟩,
      List.forall_mem_cons.mpr ⟨hinter, hinters⟩, .cons hback hbacks⟩
    rw [toInterleavedAll_cons, hm, Result.ok_bind, hms]
    rfl

theorem mem_withBetween {between item : Node} {ms : List Node}
    (h : item ∈ withBetween between ms) : item = between ∨ item ∈ ms := by
  cases ms with
  | nil => cases h
  | cons m ms =>
    rw [withBetween_cons, List.mem_cons, List.mem_flatMap] at h
    rcases h with rfl | ⟨m', hm', hitem⟩
    · exact .inr List.mem_cons_self
    · rcases List.mem_pair.mp hitem with rfl | rfl
      · exact .inl rfl
      · exact .inr (List.mem_cons_of_mem m hm')

/-- What stands between members does not make a group less interleaved. -/
theorem isInterleaved_withBetween (flags : GroupFlags) (name : String) {ms : List Node}
    (h : ∀ m ∈ ms, m.IsInterleaved) :
    (Node.interleaved flags (withBetween (.bare (.text name)) ms)).IsInterleaved := by
  refine .group fun item hitem hmember => ?_
  rcases mem_withBetween hitem with rfl | hitem
  · cases hmember
  · exact h item hitem

/-- **There and back.**  A node of a standard tree becomes a member of an interleaved one, which
has the tidied node for its standard form. -/
theorem IsNamed.exists_interleavedMember (h : t.IsNamed) :
    ∃ m, interleavedMember t = .ok m ∧ m.IsMember ∧ m.IsInterleaved ∧
      m.standardMember = .ok t.tidied := by
  induction h with
  | rule r => exact ⟨.rule r, rfl, .rule r, .rule r, rfl⟩
  | @group name flags children _ ih =>
    obtain ⟨ms, hall, hmembers, hinters, hback⟩ := exists_members ih
    refine ⟨.interleaved flags (withBetween (.bare (.text name)) ms), ?_, .interleaved _ _,
      isInterleaved_withBetween flags name hinters, ?_⟩
    · rw [interleavedMember, toInterleaved, hall, Result.ok_bind, interleave,
        checkTurns_withBetween name hmembers]
      rfl
    · rw [standardMember, toStandard_withBetween flags name hmembers hback, tidied_group,
        List.length_map]

theorem IsNamed.exists_toInterleaved (h : t.IsNamed) (hgroup : t.isGroup = true) :
    ∃ i, t.toInterleaved = .ok i ∧ i.IsInterleaved ∧ i.isGroup = true ∧
      i.toStandard = .ok t.tidied := by
  obtain ⟨i, hi, hmember, hinter, hback⟩ := h.exists_interleavedMember
  cases h with
  | rule => cases hgroup
  | group =>
    cases hmember with
    | rule r =>
      rw [tidied_group] at hback
      cases hback
    | interleaved => exact ⟨_, hi, hinter, rfl, hback⟩

/-! ### What is tidy stays -/

/-- A standard tree whose combinators are trimmed and in lower case, and `and` where there are
not several members to join. -/
inductive IsTidy : Node → Prop where
  | rule (r : Rule) : IsTidy (.rule r)
  | group {name : String} {flags : GroupFlags} {children : List Node} :
      joinName name children.length = name → (∀ child ∈ children, IsTidy child) →
      IsTidy (.group (.text name) flags children)

theorem IsTidy.isNamed (h : t.IsTidy) : t.IsNamed := by
  induction h with
  | rule r => exact .rule r
  | group _ _ ih => exact .group ih

theorem IsTidy.tidied_eq (h : t.IsTidy) : t.tidied = t := by
  induction h with
  | rule r => rfl
  | group hname _ ih => rw [tidied_group, hname, List.map_congr_left ih, List.map_id']

/-! ### Standard forms are tidy -/

/-- A name that is trimmed and in lower case joins several members. -/
theorem joinName_eq_self {name : String} {count : Nat} (hcount : 2 ≤ count)
    (hname : Text.lower (Text.trim name) = name) : joinName name count = name := by
  rw [joinName, if_neg (by omega)]
  exact hname

/-- A sequence that the combinator occurs in falls into several rows. -/
theorem Cuts.two_le_length {name : String} {rows : List (Node × List (String × Node))}
    (h : Cuts name head tail rows) (hoccurs : ∃ e ∈ tail, e.1 = name) : 2 ≤ rows.length := by
  cases h with
  | last hrun =>
    obtain ⟨e, he, hname⟩ := hoccurs
    exact absurd hname (hrun e he)
  | cut _ hrest =>
    cases hrest <;> simp

/-- Tidy members are joined to a tidy node by combinators in lower case. -/
theorem isTidy_of_joinByPrecedence (h : joinByPrecedence head tail = .ok node)
    (hnames : ∀ e ∈ tail, Text.lower (Text.trim e.1) = e.1) (hhead : head.IsTidy)
    (htail : ∀ e ∈ tail, e.2.IsTidy) : node.IsTidy := by
  revert hnames hhead htail
  refine joinByPrecedence_induct (P := fun head tail node =>
    (∀ e ∈ tail, Text.lower (Text.trim e.1) = e.1) → head.IsTidy →
      (∀ e ∈ tail, e.2.IsTidy) → node.IsTidy) ?_ ?_ ?_ h
  · exact fun _ _ hhead _ => hhead
  · intro name head next rest _ hnames hhead htail
    obtain ⟨hnext, hrest⟩ := List.forall_mem_cons.mp htail
    refine .group (joinName_eq_self (by simp) (hnames (name, next) List.mem_cons_self)) ?_
    exact List.forall_mem_cons.mpr ⟨hhead, List.forall_mem_cons.mpr
      ⟨hnext, List.forall_mem_map.mpr hrest⟩⟩
  · intro level tighter head tail rows join _ hoccurs _ hcuts hrows hnames hhead htail
    obtain ⟨e, he, rfl⟩ := hoccurs
    refine .group (joinName_eq_self ?_ (hnames e he)) ?_
    · rw [List.length_map]
      exact hcuts.two_le_length ⟨e, he, rfl⟩
    · refine List.forall_mem_map.mpr fun row hrow => hrows row hrow (fun e he => ?_)
        (hcuts.head_of_mem hhead htail row hrow) fun e he => ?_
      · exact (hcuts.forall_mem hnames row hrow e he).1
      · exact (hcuts.forall_mem htail row hrow e he).1

/-- Tidy members in turns are a tidy group. -/
theorem isTidy_of_ofTurns (h : ofTurns flags (alternate head tail) = .ok node)
    (hhead : head.IsTidy) (htail : ∀ e ∈ tail, e.2.IsTidy) : node.IsTidy := by
  by_cases hne : tail = []
  · subst hne
    obtain rfl := Except.ok.inj h
    exact .group rfl (by simpa using hhead)
  · have hne' : normalized tail ≠ [] := by simpa [normalized] using hne
    rw [ofTurns_alternate flags head hne] at h
    obtain ⟨joined, hjoined, rfl⟩ := Result.map_eq_ok h
    have htidy : joined.IsTidy := by
      refine isTidy_of_joinByPrecedence hjoined ?_ hhead (List.forall_mem_map.mpr htail)
      exact List.forall_mem_map.mpr fun e _ => Text.lower_trim_lower_trim e.1
    obtain ⟨name, children, rfl⟩ := exists_ofChildren_of_joinByPrecedence hjoined hne'
    cases htidy with
    | group hname hchildren => exact .group hname hchildren

/-- The members of an interleaved group that has a standard form are rules and interleaved
groups. -/
theorem isMember_of_alternate
    (h : standardMember (.interleaved flags (alternate head tail)) = .ok node) :
    head.IsMember ∧ ∀ e ∈ tail, e.2.IsMember := by
  rw [standardMember, toStandard] at h
  obtain ⟨_, hturns, -⟩ := Result.bind_eq_ok h
  obtain ⟨head', tail', hitems, hhead, htail⟩ := exists_alternate hturns (by simp [alternate])
  have hmembers := congrArg turnMembers hitems
  rw [turnMembers_alternate, turnMembers_alternate] at hmembers
  have hall : ∀ m ∈ head :: tail.map (·.2), m.IsMember := by
    rw [hmembers]
    exact List.forall_mem_cons.mpr ⟨hhead, List.forall_mem_map.mpr htail⟩
  obtain ⟨hfirst, hrest⟩ := List.forall_mem_cons.mp hall
  exact ⟨hfirst, List.forall_mem_map.mp hrest⟩

/-- **Standard forms are tidy**, if there is no standard group to begin with. -/
theorem isTidy_of_standardMember (hmember : t.IsMember) (h : t.standardMember = .ok node) :
    node.IsTidy := by
  induction t using induct generalizing node with
  | rule r =>
    obtain rfl := Except.ok.inj h
    exact .rule r
  | bare | group => cases hmember
  | interleaved flags items ih =>
    rcases standardMember_interleaved h with
      ⟨rfl, rfl⟩ | ⟨head, tail, head', tail', rfl, hhead, htail, hresult⟩
    · exact .group rfl (by simp)
    · obtain ⟨hfirst, hrest⟩ := isMember_of_alternate h
      exact isTidy_of_ofTurns hresult (ih head (head_mem_alternate head tail) hfirst hhead)
        (forall_mem_right htail fun e he _ hstandard =>
          ih e.2 (mem_alternate he) (hrest e he) hstandard.2)

/-- **There and back.**  A standard tree with texts for combinators has an interleaved shape,
with no standard group left in it, whose standard form is the tree with tidied combinators.  The
standard form of an interleaved tree has one too, and comes back as it is. -/
theorem toStandard_toInterleaved :
    (∀ t : Node, t.IsNamed → t.isGroup = true →
      ∃ i, t.toInterleaved = .ok i ∧ i.IsInterleaved ∧ i.isGroup = true ∧
        i.toStandard = .ok t.tidied) ∧
    ∀ (flags : GroupFlags) (items : List Node) (s : Node),
      toStandard (.interleaved flags items) = .ok s →
        ∃ i, s.toInterleaved = .ok i ∧ i.IsInterleaved ∧ i.isGroup = true ∧
          i.toStandard = .ok s := by
  refine ⟨fun t ht hgroup => ht.exists_toInterleaved hgroup, fun flags items s h => ?_⟩
  have htidy : s.IsTidy := isTidy_of_standardMember (.interleaved flags items) h
  have hgroup : s.isGroup = true := by
    rcases standardMember_interleaved h with ⟨-, rfl⟩ | ⟨_, _, _, _, -, -, -, hresult⟩
    · rfl
    · obtain ⟨combinator, children, rfl, -⟩ := exists_group_of_ofTurns hresult
      rfl
  obtain ⟨i, hi, hinter, hi', hback⟩ := htidy.isNamed.exists_toInterleaved hgroup
  rw [htidy.tidied_eq] at hback
  exact ⟨i, hi, hinter, hi', hback⟩

/-- The negation of `a nor (b nor c) nor (d)`, each group with flags of its own. -/
def nestedSpecimen : Node :=
  let condition (field : String) : Node :=
    .rule { Rule.of field .eq (.int 1) with id := .text field }
  .group (.text " NOR") { negated := true, id := .int 1 }
    [condition "a",
      .group (.text "nor ") { disabled := true, id := .int 2 } [condition "b", condition "c"],
      .group (.text "nor") {} [condition "d"]]

theorem toStandard_toInterleaved_specimen :
    nestedSpecimen.IsNamed ∧ nestedSpecimen.isGroup = true ∧
      (∃ i, nestedSpecimen.toInterleaved = .ok i ∧ i.IsInterleaved ∧ i.isGroup = true ∧
        i.toStandard = .ok nestedSpecimen.tidied) ∧
      ∃ s, precedenceSpecimen.toStandard = .ok s ∧
        ∃ i, s.toInterleaved = .ok i ∧ i.IsInterleaved ∧ i.isGroup = true ∧
          i.toStandard = .ok s := by
  have hnamed : nestedSpecimen.IsNamed := by
    refine .group (List.forall_mem_cons.mpr ⟨.rule _, List.forall_mem_cons.mpr ⟨?_, ?_⟩⟩)
    · exact .group (by simp [IsNamed.rule])
    · exact List.forall_mem_singleton.mpr (.group (by simp [IsNamed.rule]))
  obtain ⟨s, hs⟩ : ∃ s, precedenceSpecimen.toStandard = .ok s := by
    have hjoined : precedenceSpecimen.toStandard.toBool = true := by decide +kernel
    cases hs : precedenceSpecimen.toStandard with
    | ok s => exact ⟨s, rfl⟩
    | error e =>
      rw [hs] at hjoined
      cases hjoined
  exact ⟨hnamed, rfl, toStandard_toInterleaved.1 _ hnamed rfl, s, hs,
    toStandard_toInterleaved.2 _ _ s hs⟩

end
end Node
end RuleTree
