import RuleTree.Proofs.Interpretation
import RuleTree.Proofs.Rebuilding

/-! # Precedence

Joining a sequence by precedence keeps what it says.  A sequence is cut at its
loosest combinator (`Cuts`), and the cuts are joined at the next tighter one;
`joinByPrecedence_induct` is the induction that this gives.  From it follow the
truth value of the result (`truth_of_joinByPrecedence`), its rules
(`rules_of_joinByPrecedence`) and its shape, and `joinByPrecedence_eq_ok_iff` says
when there is one.
-/
namespace RuleTree

/-! ### Mixed sequences -/

namespace Interpretation
variable (I : Interpretation) {odd run b : Bool}

/-- An `or` is what stands before it or what stands behind it. -/
theorem ranked_or (before after : List (String × Bool)) :
    ranked odd run (before ++ ("or", b) :: after) =
      (ranked odd run before || ranked false b after) := by
  induction before generalizing odd run with
  | nil => simp [ranked]
  | cons entry before ih =>
    obtain ⟨name, v⟩ := entry
    rw [List.cons_append, ranked, ranked]
    split
    · exact ih
    · split
      · exact ih
      · rw [ih, Bool.or_assoc]

/-- A sequence without an `or` has the parity of what comes before it. -/
theorem ranked_odd {tail : List (String × Bool)} (h : ∀ e ∈ tail, e.1 = "and" ∨ e.1 = "xor") :
    ranked odd run tail = (odd ^^ ranked false run tail) := by
  induction tail generalizing odd run with
  | nil => simp [ranked]
  | cons entry tail ih =>
    obtain ⟨name, v⟩ := entry
    have htail : ∀ odd run, ranked odd run tail = (odd ^^ ranked false run tail) :=
      fun _ _ => ih fun e he => h e (List.mem_cons_of_mem _ he)
    rcases h (name, v) List.mem_cons_self with rfl | rfl
    · simp only [ranked, if_pos]
      exact htail odd (run && v)
    · simp only [ranked, String.reduceEq, if_false, if_pos]
      rw [htail (odd ^^ run), htail (false ^^ run)]
      simp

/-- Without an `or`, a `xor` is the parity of what stands before it and what
stands behind it. -/
theorem ranked_xor {before after : List (String × Bool)}
    (hbefore : ∀ e ∈ before, e.1 = "and" ∨ e.1 = "xor")
    (hafter : ∀ e ∈ after, e.1 = "and" ∨ e.1 = "xor") :
    ranked odd run (before ++ ("xor", b) :: after) =
      (ranked odd run before ^^ ranked false b after) := by
  induction before generalizing odd run with
  | nil =>
    simp only [List.nil_append, ranked, String.reduceEq, if_false, if_pos]
    exact ranked_odd hafter
  | cons entry before ih =>
    obtain ⟨name, v⟩ := entry
    have hrest := fun e he => hbefore e (List.mem_cons_of_mem _ he)
    rcases hbefore (name, v) List.mem_cons_self with rfl | rfl
    · simp only [List.cons_append, ranked, if_pos]
      exact ih hrest
    · simp only [List.cons_append, ranked, String.reduceEq, if_false, if_pos]
      exact ih hrest

section
variable {head : Bool} {tail : List (String × Bool)}

theorem ranked_ands (h : ∀ e ∈ tail, e.1 = "and") :
    ranked odd run tail = (odd ^^ (run && (tail.map (·.2)).all id)) := by
  induction tail generalizing run with
  | nil => simp [ranked]
  | cons entry tail ih =>
    have hname : entry.1 = "and" := h entry List.mem_cons_self
    rw [ranked, if_pos hname, ih fun e he => h e (List.mem_cons_of_mem _ he)]
    simp [Bool.and_assoc]

theorem ranked_xors (h : ∀ e ∈ tail, e.1 = "xor") :
    ranked odd run tail = (odd ^^ parity (run :: tail.map (·.2))) := by
  induction tail generalizing odd run with
  | nil => simp [ranked, parity]
  | cons entry tail ih =>
    have hname : entry.1 = "xor" := h entry List.mem_cons_self
    rw [ranked, hname, if_neg (by decide), if_pos rfl,
      ih fun e he => h e (List.mem_cons_of_mem _ he)]
    simp [parity]

theorem ranked_ors (h : ∀ e ∈ tail, e.1 = "or") :
    ranked false head tail = (head :: tail.map (·.2)).any id := by
  induction tail generalizing head with
  | nil => simp [ranked]
  | cons entry tail ih =>
    have hname : entry.1 = "or" := h entry List.mem_cons_self
    rw [ranked, hname, if_neg (by decide), if_neg (by decide),
      ih fun e he => h e (List.mem_cons_of_mem _ he)]
    simp

/-- A sequence with one combinator throughout is what the combinator makes of
it. -/
theorem ranked_uniform {name : String} (hname : name ∈ Node.precedence)
    (h : ∀ e ∈ tail, e.1 = name) :
    ranked false head tail = I.named name (head :: tail.map (·.2)) := by
  simp only [Node.precedence, List.mem_cons, List.not_mem_nil, or_false] at hname
  rcases hname with rfl | rfl | rfl
  · exact ranked_ors h
  · exact (ranked_xors h).trans (Bool.false_xor _)
  · exact (ranked_ands h).trans (Bool.false_xor _)

/-- Where every combinator has an order, sequences are read in that order. -/
theorem sequence_eq_ranked (h : ∀ e ∈ tail, e.1 ∈ Node.precedence) :
    I.sequence head tail = ranked false head tail := by
  match tail with
  | [] => simp [sequence, ranked]
  | (name, b) :: rest =>
    rw [sequence]
    split
    case isFalse => rfl
    case isTrue huniform =>
      have hrest : ∀ e ∈ (name, b) :: rest, e.1 = name :=
        List.forall_mem_cons.mpr ⟨rfl, by simpa using huniform⟩
      exact (I.ranked_uniform (h _ List.mem_cons_self) hrest).symm

end

end Interpretation

namespace Node
open Interpretation

/-! ### Cutting a sequence -/

/-- The rows of members that a sequence falls into when it is cut at every
occurrence of a combinator. -/
inductive Cuts (name : String) :
    Node → List (String × Node) → List (Node × List (String × Node)) → Prop where
  | last {head : Node} {run : List (String × Node)} :
      (∀ e ∈ run, e.1 ≠ name) → Cuts name head run [(head, run)]
  | cut {head next : Node} {run rest : List (String × Node)}
      {rows : List (Node × List (String × Node))} :
      (∀ e ∈ run, e.1 ≠ name) → Cuts name next rest rows →
      Cuts name head (run ++ (name, next) :: rest) ((head, run) :: rows)

/-- `segments` cuts a sequence. -/
theorem cuts_segments (name : String) (head : Node) (tail : List (String × Node)) :
    Cuts name head tail (segments name head tail) := by
  induction tail generalizing head with
  | nil => exact .last (by simp)
  | cons entry rest ih =>
    obtain ⟨c, next⟩ := entry
    rw [segments]
    split
    case isTrue hc =>
      subst hc
      have hcut : Cuts c head ([] ++ (c, next) :: rest) ((head, []) :: segments c next rest) :=
        .cut (by simp) (ih next)
      exact hcut
    case isFalse hc =>
      -- the entry goes to the row that starts with the next member
      generalize hrows : segments name next rest = rows
      have hcuts := ih next
      rw [hrows] at hcuts
      cases hcuts with
      | last hrun => exact .last (List.forall_mem_cons.mpr ⟨hc, hrun⟩)
      | cut hrun hmore => exact .cut (List.forall_mem_cons.mpr ⟨hc, hrun⟩) hmore

namespace Cuts
variable {name : String} {head : Node} {tail : List (String × Node)}
  {rows : List (Node × List (String × Node))}

/-- The rows hold nothing but the sequence, without the combinator of the
cuts. -/
theorem forall_mem {P : String × Node → Prop} (h : Cuts name head tail rows)
    (htail : ∀ e ∈ tail, P e) : ∀ row ∈ rows, ∀ e ∈ row.2, P e ∧ e.1 ≠ name := by
  induction h with
  | last hrun =>
    exact List.forall_mem_singleton.mpr fun e he => ⟨htail e he, hrun e he⟩
  | cut hrun _ ih =>
    refine List.forall_mem_cons.mpr ⟨fun e he => ⟨htail e ?_, hrun e he⟩, ih fun e he => htail e ?_⟩
    · exact List.mem_append_left _ he
    · exact List.mem_append_right _ (List.mem_cons_of_mem _ he)

/-- Every row starts with a member of the sequence. -/
theorem head_of_mem {P : Node → Prop} (h : Cuts name head tail rows) (hhead : P head)
    (htail : ∀ e ∈ tail, P e.2) : ∀ row ∈ rows, P row.1 := by
  induction h with
  | last => exact List.forall_mem_singleton.mpr hhead
  | cut _ _ ih =>
    obtain ⟨hnext, hrest⟩ := List.forall_mem_cons.mp (List.forall_mem_append.mp htail).2
    exact List.forall_mem_cons.mpr ⟨hhead, ih hnext hrest⟩

/-- The members of the rows are those of the sequence, in the same order. -/
theorem flatMap_members {α : Type} (f : Node → List α) (h : Cuts name head tail rows) :
    (rows.flatMap fun row => f row.1 ++ row.2.flatMap fun e => f e.2) =
      f head ++ tail.flatMap fun e => f e.2 := by
  induction h with
  | last => simp
  | cut _ _ ih => simp [ih]

end Cuts

/-! ### Joining a sequence -/

/-- A mixture can be joined if every combinator in it has an order. -/
theorem isEmpty_unordered_iff {tail : List (String × Node)} :
    (unordered tail).isEmpty = true ↔ ∀ e ∈ tail, e.1 ∈ precedence := by
  simp [unordered, List.isEmpty_iff, List.eq_nil_iff_forall_not_mem]

section
variable {P : Node → List (String × Node) → Node → Prop}

/-- Joining by levels, where every combinator of the sequence has a level. -/
theorem joinLevels_induct (single : ∀ head, P head [] head)
    (uniform : ∀ name head next rest, isUniform name rest = true →
      P head ((name, next) :: rest) (ofChildren name (head :: next :: rest.map (·.2))))
    (levels : List String)
    (cut : ∀ level tighter head tail rows (join : Node → List (String × Node) → Node),
      level :: tighter <:+ levels → (∃ e ∈ tail, e.1 = level) →
      (∀ e ∈ tail, e.1 ∈ level :: tighter) → Cuts level head tail rows →
      (∀ row ∈ rows, P row.1 row.2 (join row.1 row.2)) →
      P head tail (ofChildren level (rows.map fun row => join row.1 row.2)))
    (head : Node) (tail : List (String × Node)) (htail : ∀ e ∈ tail, e.1 ∈ levels) :
    P head tail (joinLevels levels head tail) := by
  induction levels generalizing head tail with
  | nil =>
    cases tail with
    | nil => exact single head
    | cons entry rest => exact absurd (htail entry List.mem_cons_self) (by simp)
  | cons level tighter ih =>
    have hih := ih fun l t head tail rows join hsuffix =>
      cut l t head tail rows join (hsuffix.trans (List.suffix_cons level tighter))
    cases tail with
    | nil => exact single head
    | cons entry rest =>
      obtain ⟨name, next⟩ := entry
      rw [joinLevels]
      split
      case isTrue huniform => exact uniform name head next rest huniform
      case isFalse =>
        split
        case isTrue hoccurs =>
          have hlevel : ∃ e ∈ (name, next) :: rest, e.1 = level := by
            simpa only [List.any_eq_true, beq_iff_eq] using hoccurs
          have hcuts := cuts_segments level head ((name, next) :: rest)
          refine cut level tighter head _ _ (joinLevels tighter) List.suffix_rfl hlevel htail hcuts
            fun row hrow => hih row.1 row.2 fun e he => ?_
          obtain ⟨hmem, hne⟩ := hcuts.forall_mem htail row hrow e he
          exact (List.mem_cons.mp hmem).resolve_left hne
        case isFalse habsent =>
          refine hih head _ fun e he => ?_
          refine (List.mem_cons.mp (htail e he)).resolve_left fun hlevel => ?_
          exact habsent (List.any_eq_true.mpr ⟨e, he, by simpa using hlevel⟩)

/-- **Joining by precedence.**  A single member stands for itself, a sequence of
one combinator is the group of its members, and a mixed one is the group of its
cuts at the loosest combinator in it. -/
theorem joinByPrecedence_induct (single : ∀ head, P head [] head)
    (uniform : ∀ name head next rest, isUniform name rest = true →
      P head ((name, next) :: rest) (ofChildren name (head :: next :: rest.map (·.2))))
    (cut : ∀ level tighter head tail rows (join : Node → List (String × Node) → Node),
      level :: tighter <:+ precedence → (∃ e ∈ tail, e.1 = level) →
      (∀ e ∈ tail, e.1 ∈ level :: tighter) → Cuts level head tail rows →
      (∀ row ∈ rows, P row.1 row.2 (join row.1 row.2)) →
      P head tail (ofChildren level (rows.map fun row => join row.1 row.2)))
    {head node : Node} {tail : List (String × Node)}
    (h : joinByPrecedence head tail = .ok node) : P head tail node := by
  match tail with
  | [] =>
    obtain rfl := Except.ok.inj h
    exact single head
  | (name, next) :: rest =>
    rw [joinByPrecedence] at h
    split at h
    case isTrue huniform =>
      obtain rfl := Except.ok.inj h
      rw [joinLevels_of_isUniform huniform]
      exact uniform name head next rest huniform
    case isFalse =>
      split at h
      case isFalse => cases h
      case isTrue hordered =>
        obtain rfl := Except.ok.inj h
        exact joinLevels_induct single uniform precedence cut head _
          (isEmpty_unordered_iff.mp hordered)

end

/-! ### What a joined sequence says -/

section
variable {I : Interpretation} {head node : Node} {tail : List (String × Node)}

/-- The truth values of the members of a sequence, with their combinators. -/
def values (I : Interpretation) (tail : List (String × Node)) : List (String × Bool) :=
  tail.map fun e => (e.1, e.2.truth I)

@[simp] theorem values_nil : values I [] = [] := rfl

@[simp] theorem values_cons (e : String × Node) (tail : List (String × Node)) :
    values I (e :: tail) = (e.1, truth I e.2) :: values I tail := rfl

@[simp] theorem values_append (run tail : List (String × Node)) :
    values I (run ++ tail) = values I run ++ values I tail := List.map_append

theorem forall_values {P : String → Prop} (h : ∀ e ∈ tail, P e.1) :
    ∀ e ∈ values I tail, P e.1 :=
  List.forall_mem_map.mpr h

theorem truth_ofChildren (name : String) (children : List Node) :
    truth I (ofChildren name children) = I.named name (children.map (truth I)) := by
  rw [ofChildren, truth_group]
  simp [Interpretation.joined]

section
variable {rows : List (Node × List (String × Node))}

/-- The truth value of a row of members, read by precedence. -/
def rowTruth (I : Interpretation) (row : Node × List (String × Node)) : Bool :=
  ranked false (truth I row.1) (values I row.2)

theorem ranked_of_cuts_or (h : Cuts "or" head tail rows) :
    rowTruth I (head, tail) = (rows.map (rowTruth I)).any id := by
  induction h with
  | last => simp [rowTruth]
  | cut _ _ ih =>
    rw [rowTruth, values_append, values_cons, ranked_or, List.map_cons, List.any_cons, ← ih]
    rfl

theorem ranked_of_cuts_xor (htail : ∀ e ∈ tail, e.1 = "and" ∨ e.1 = "xor")
    (h : Cuts "xor" head tail rows) :
    rowTruth I (head, tail) = parity (rows.map (rowTruth I)) := by
  induction h with
  | last => simp [rowTruth, parity]
  | cut _ _ ih =>
    obtain ⟨hrun, hrest⟩ := List.forall_mem_append.mp htail
    have hrest := (List.forall_mem_cons.mp hrest).2
    rw [rowTruth, values_append, values_cons, List.map_cons, parity, List.foldr_cons, ← parity,
      ← ih hrest]
    exact ranked_xor (forall_values (P := fun c => c = "and" ∨ c = "xor") hrun)
      (forall_values (P := fun c => c = "and" ∨ c = "xor") hrest)

theorem ranked_of_cuts_and (htail : ∀ e ∈ tail, e.1 = "and") (h : Cuts "and" head tail rows) :
    rowTruth I (head, tail) = (rows.map (rowTruth I)).all id := by
  induction h with
  | last => simp [rowTruth]
  | @cut head next run rest rows hrun _ ih =>
    obtain ⟨hand, hrest⟩ := List.forall_mem_append.mp htail
    have hrest := (List.forall_mem_cons.mp hrest).2
    -- every combinator is a cut, so nothing stands between two of them
    obtain rfl : run = [] := List.eq_nil_iff_forall_not_mem.mpr fun e he => hrun e he (hand e he)
    have hvalues := forall_values (P := fun c => c = "and") (I := I) hrest
    rw [List.map_cons, List.all_cons, ← ih hrest]
    simp [rowTruth, ranked, ranked_ands hvalues, Bool.and_assoc]

/-- The combinator of the cuts joins what is between them. -/
theorem rowTruth_of_cuts {level : String} {tighter : List String}
    (hlevel : level :: tighter <:+ precedence) (htail : ∀ e ∈ tail, e.1 ∈ level :: tighter)
    (h : Cuts level head tail rows) :
    rowTruth I (head, tail) = I.named level (rows.map (rowTruth I)) := by
  simp only [precedence, List.suffix_cons_iff, List.cons.injEq, List.suffix_nil] at hlevel
  rcases hlevel with ⟨rfl, rfl⟩ | ⟨rfl, rfl⟩ | ⟨rfl, rfl⟩ | hnil
  · exact ranked_of_cuts_or h
  · exact ranked_of_cuts_xor (fun e he => by simpa [or_comm] using htail e he) h
  · exact ranked_of_cuts_and (by simpa using htail) h
  · cases hnil

end

/-- **A joined sequence says what the sequence says.** -/
theorem truth_of_joinByPrecedence (h : joinByPrecedence head tail = .ok node) :
    truth I node = I.sequence (truth I head) (values I tail) := by
  refine joinByPrecedence_induct (P := fun head tail node =>
    truth I node = I.sequence (truth I head) (values I tail)) ?_ ?_ ?_ h
  · intro head
    rfl
  · intro name head next rest huniform
    have hall : ((values I rest).all fun entry => entry.1 == name) = true := by
      rw [values, List.all_map]
      exact huniform
    have hsequence : I.sequence (truth I head) ((name, truth I next) :: values I rest) =
        I.named name (truth I head :: truth I next :: (values I rest).map (·.2)) := if_pos hall
    rw [truth_ofChildren, values_cons, hsequence]
    simp [values, Function.comp_def]
  · intro level tighter head tail rows join hlevel _ htail hcuts hrows
    have hordered : ∀ e ∈ tail, e.1 ∈ precedence := fun e he => hlevel.subset (htail e he)
    have hmembers : ∀ row ∈ rows, truth I (join row.1 row.2) = rowTruth I row := fun row hrow => by
      have hrow' := hcuts.forall_mem hordered row hrow
      rw [hrows row hrow, I.sequence_eq_ranked (forall_values fun e he => (hrow' e he).1), rowTruth]
    rw [I.sequence_eq_ranked (forall_values hordered), truth_ofChildren, List.map_map]
    exact (congrArg (I.named level) (List.map_congr_left hmembers)).trans
      (rowTruth_of_cuts hlevel htail hcuts).symm

/-- It has the rules of the sequence. -/
theorem rules_of_joinByPrecedence (h : joinByPrecedence head tail = .ok node) :
    rules node = rules head ++ tail.flatMap fun e => rules e.2 := by
  refine joinByPrecedence_induct (P := fun head tail node =>
    rules node = rules head ++ tail.flatMap fun e => rules e.2) ?_ ?_ ?_ h
  · simp
  · intro name head next rest _
    simp [ofChildren, List.flatMap_map]
  · intro level tighter head tail rows join _ _ _ hcuts hrows
    rw [ofChildren, rules_group, List.flatMap_map, ← hcuts.flatMap_members]
    exact List.flatMap_congr hrows

/-- A rule, or a group of such nodes without an interleaved one. -/
inductive IsStandard : Node → Prop where
  | rule (r : Rule) : IsStandard (.rule r)
  | group {combinator : Value} {flags : GroupFlags} {children : List Node} :
      (∀ child ∈ children, IsStandard child) → IsStandard (.group combinator flags children)

/-- Standard members are joined to a standard node. -/
theorem isStandard_of_joinByPrecedence (h : joinByPrecedence head tail = .ok node)
    (hhead : head.IsStandard) (htail : ∀ e ∈ tail, e.2.IsStandard) : node.IsStandard := by
  revert hhead htail
  refine joinByPrecedence_induct (P := fun head tail node =>
    head.IsStandard → (∀ e ∈ tail, e.2.IsStandard) → node.IsStandard) ?_ ?_ ?_ h
  · exact fun _ hhead _ => hhead
  · intro name head next rest _ hhead htail
    obtain ⟨hnext, hrest⟩ := List.forall_mem_cons.mp htail
    exact .group (List.forall_mem_cons.mpr ⟨hhead, List.forall_mem_cons.mpr
      ⟨hnext, List.forall_mem_map.mpr hrest⟩⟩)
  · intro level tighter head tail rows join _ _ _ hcuts hrows hhead htail
    refine .group (List.forall_mem_map.mpr fun row hrow => hrows row hrow ?_ fun e he => ?_)
    · exact hcuts.head_of_mem hhead htail row hrow
    · exact (hcuts.forall_mem htail row hrow e he).1

/-- Several members are joined to a group without flags. -/
theorem exists_ofChildren_of_joinByPrecedence (h : joinByPrecedence head tail = .ok node)
    (hne : tail ≠ []) : ∃ name children, node = ofChildren name children := by
  revert hne
  refine joinByPrecedence_induct (P := fun _ tail node =>
    tail ≠ [] → ∃ name children, node = ofChildren name children) ?_ ?_ ?_ h
  · exact fun _ hne => absurd rfl hne
  · exact fun _ _ _ _ _ _ => ⟨_, _, rfl⟩
  · exact fun _ _ _ _ _ _ _ _ _ _ _ _ => ⟨_, _, rfl⟩

/-- A sequence of one combinator can be joined, and so can a mixture of
combinators that have an order. -/
theorem joinByPrecedence_eq_ok_iff :
    (∃ node, joinByPrecedence head tail = .ok node) ↔
      ¬∃ a ∈ tail, ∃ b ∈ tail, a.1 ≠ b.1 ∧ b.1 ∉ precedence := by
  match tail with
  | [] => simp [joinByPrecedence]
  | (name, next) :: rest =>
    rw [joinByPrecedence]
    split
    case isTrue huniform =>
      have hall : ∀ e ∈ (name, next) :: rest, e.1 = name :=
        List.forall_mem_cons.mpr ⟨rfl, by simpa [isUniform] using huniform⟩
      refine iff_of_true ⟨_, rfl⟩ ?_
      rintro ⟨a, ha, b, hb, hne, -⟩
      exact hne ((hall a ha).trans (hall b hb).symm)
    case isFalse hmixed =>
      split
      case isTrue hordered =>
        refine iff_of_true ⟨_, rfl⟩ ?_
        rintro ⟨-, -, b, hb, -, hunknown⟩
        exact hunknown (isEmpty_unordered_iff.mp hordered b hb)
      case isFalse hunordered =>
        refine iff_of_false ?_ (not_not.mpr ?_)
        · rintro ⟨_, h⟩
          cases h
        · obtain ⟨b, hb, hunknown⟩ : ∃ b ∈ (name, next) :: rest, b.1 ∉ precedence := by
            simpa only [not_forall, exists_prop] using mt isEmpty_unordered_iff.mpr hunordered
          obtain ⟨a, ha, hne⟩ : ∃ a ∈ rest, a.1 ≠ name := by simpa [isUniform] using hmixed
          -- the combinator without an order differs from the first one or from another
          by_cases hb' : b.1 = name
          · exact ⟨a, List.mem_cons_of_mem _ ha, b, hb, hb' ▸ hne, hunknown⟩
          · exact ⟨(name, next), List.mem_cons_self, b, hb, Ne.symm hb', hunknown⟩

end

end Node
end RuleTree
