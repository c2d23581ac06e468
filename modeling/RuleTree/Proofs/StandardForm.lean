import RuleTree.Proofs.Precedence

/-! # Standard forms

The standard form of a tree says the same as the tree.  The items of an
interleaved group are a sequence (`exists_alternate`), which is joined by
precedence once its members have their standard forms; `standardMember_induct` is
the induction that this gives.  From it follow the rules of the result
(`rules_of_standardMember`) and its truth value (`truth_of_standardMember`), and
beside them stands when there is none (`HasMixture.standardMember_ne`,
`IsTree.exists_standardMember`).  Together they are `toStandard_by_precedence`.
-/
namespace RuleTree
namespace Node
open Interpretation

/-! ### Members and combinators in turns -/

/-- A sequence as the items of an interleaved group. -/
def alternate (head : Node) (tail : List (String × Node)) : List Node :=
  head :: tail.flatMap fun e => [.bare (.text e.1), e.2]

/-- A sequence with its combinators trimmed and in lower case. -/
def normalized (tail : List (String × Node)) : List (String × Node) :=
  tail.map fun e => (Text.lower (Text.trim e.1), e.2)

section
variable {head : Node} {tail : List (String × Node)} {items : List Node}

theorem normalized_names (tail : List (String × Node)) : (normalized tail).map (·.1) =
    (tail.map (·.1)).map fun name => Text.lower (Text.trim name) := by
  simp [normalized]

theorem turnMembers_alternate (head : Node) (tail : List (String × Node)) :
    turnMembers (alternate head tail) = head :: tail.map (·.2) := by
  induction tail generalizing head with
  | nil => rfl
  | cons e tail ih => exact congrArg (head :: ·) (ih e.2)

theorem combinatorNames_alternate (head : Node) (tail : List (String × Node)) :
    (turnCombinators (alternate head tail)).map combinatorName =
      (normalized tail).map (·.1) := by
  induction tail generalizing head with
  | nil => rfl
  | cons e tail ih =>
    have htail : turnCombinators (alternate head (e :: tail)) =
        .bare (.text e.1) :: turnCombinators (alternate e.2 tail) := by
      cases tail <;> rfl
    rw [htail, List.map_cons, ih]
    rfl

theorem exists_alternate_of_checkTurnsFrom {items : List Node} {position : Nat}
    (hposition : position % 2 = 0) (hlength : items.length % 2 = 1)
    (h : checkTurnsFrom position items = .ok ()) :
    ∃ head tail, items = alternate head tail ∧ head.IsMember ∧ ∀ e ∈ tail, e.2.IsMember := by
  match items with
  | [] => cases hlength
  | head :: rest =>
    obtain ⟨hhead, hrest⟩ : head.IsMember ∧ checkTurnsFrom (position + 1) rest = .ok () := by
      unfold checkTurnsFrom at h
      rw [if_neg (by omega)] at h
      split at h
      · exact ⟨.rule _, h⟩
      · exact ⟨.interleaved _ _, h⟩
      · cases h
    match rest with
    | [] => exact ⟨head, [], rfl, hhead, by simp⟩
    | sign :: rest =>
      unfold checkTurnsFrom at hrest
      rw [if_pos (by omega)] at hrest
      split at hrest
      case h_2 => cases hrest
      case h_1 name =>
        obtain ⟨next, tail, rfl, hnext, htail⟩ :=
          exists_alternate_of_checkTurnsFrom (by omega)
            (by simpa [Nat.add_assoc] using hlength) hrest
        exact ⟨head, (name, next) :: tail, rfl, hhead, List.forall_mem_cons.mpr ⟨hnext, htail⟩⟩

/-- Items that take turns are a sequence. -/
theorem exists_alternate (h : checkTurns items = .ok ()) (hne : items ≠ []) :
    ∃ head tail, items = alternate head tail ∧ head.IsMember ∧ ∀ e ∈ tail, e.2.IsMember := by
  rw [checkTurns] at h
  split at h
  case isTrue => cases h
  case isFalse hodd =>
    exact exists_alternate_of_checkTurnsFrom rfl (by simpa [hne] using hodd) h

theorem length_alternate (head : Node) (tail : List (String × Node)) :
    (alternate head tail).length = 2 * tail.length + 1 := by
  induction tail generalizing head with
  | nil => rfl
  | cons e tail ih =>
    have htail : (alternate head (e :: tail)).length = (alternate e.2 tail).length + 2 := rfl
    rw [htail, ih, List.length_cons]
    omega

theorem checkTurnsFrom_alternate {position : Nat} (hposition : position % 2 = 0)
    (hhead : head.IsMember) (htail : ∀ e ∈ tail, e.2.IsMember) :
    checkTurnsFrom position (alternate head tail) = .ok () := by
  induction tail generalizing head position with
  | nil => cases hhead <;> simp [alternate, checkTurnsFrom, hposition]
  | cons e tail ih =>
    obtain ⟨hnext, hrest⟩ := List.forall_mem_cons.mp htail
    have hodd : (position + 1) % 2 = 1 := by omega
    have hih := ih (by omega : (position + 1 + 1) % 2 = 0) hnext hrest
    have hitems : alternate head (e :: tail) =
        head :: .bare (.text e.1) :: alternate e.2 tail := rfl
    cases hhead <;> simpa [hitems, checkTurnsFrom, hposition, hodd] using hih

/-- The items of a sequence take turns. -/
theorem checkTurns_alternate (hhead : head.IsMember) (htail : ∀ e ∈ tail, e.2.IsMember) :
    checkTurns (alternate head tail) = .ok () := by
  have hlength := length_alternate head tail
  rw [checkTurns, if_neg (by simp; omega)]
  exact checkTurnsFrom_alternate rfl hhead htail

theorem ofTurns_alternate_nil (flags : GroupFlags) (head : Node) :
    ofTurns flags (alternate head []) = .ok (.group (.text "and") flags [head]) := rfl

theorem ofTurns_alternate (flags : GroupFlags) (head : Node) (hne : tail ≠ []) :
    ofTurns flags (alternate head tail) =
      (joinByPrecedence head (normalized tail)).map (withFlags flags) := by
  obtain ⟨e, rest, rfl⟩ := List.exists_cons_of_ne_nil hne
  have hzip : ((normalized (e :: rest)).map (·.1)).zip ((e :: rest).map (·.2)) =
      normalized (e :: rest) := by
    rw [normalized, List.map_map, List.zip_map', List.map_congr_left]
    exact fun _ _ => rfl
  rw [ofTurns, turnMembers_alternate, combinatorNames_alternate]
  simp only [hzip]
  rfl

/-- The group of a sequence has the flags that are asked for, and says what the
sequence says. -/
theorem exists_group_of_ofTurns {flags : GroupFlags} {node : Node}
    (h : ofTurns flags (alternate head tail) = .ok node) :
    ∃ combinator children, node = .group combinator flags children ∧
      (∀ I : Interpretation, I.joined combinator (children.map (truth I)) =
        I.sequence (truth I head) (values I (normalized tail))) ∧
      children.flatMap rules = rules head ++ tail.flatMap (fun e => rules e.2) ∧
      (head.IsStandard → (∀ e ∈ tail, e.2.IsStandard) → ∀ child ∈ children, child.IsStandard) := by
  by_cases hne : tail = []
  · subst hne
    obtain rfl := Except.ok.inj h
    refine ⟨_, _, rfl, fun I => ?_, by simp, fun hhead _ => by simpa using hhead⟩
    simp [Interpretation.joined, Interpretation.named, Interpretation.sequence, normalized]
  · have hne' : normalized tail ≠ [] := by simpa [normalized] using hne
    rw [ofTurns_alternate flags head hne] at h
    obtain ⟨joined, hjoined, rfl⟩ := Result.map_eq_ok h
    have htruth := fun I => truth_of_joinByPrecedence (I := I) hjoined
    have hrules := rules_of_joinByPrecedence hjoined
    have hstandard := isStandard_of_joinByPrecedence hjoined
    obtain ⟨name, children, rfl⟩ := exists_ofChildren_of_joinByPrecedence hjoined hne'
    refine ⟨.text name, children, rfl, fun I => ?_, ?_, fun hhead htail => ?_⟩
    · rw [← htruth, truth_ofChildren]
      rfl
    · rw [ofChildren, rules_group] at hrules
      rw [hrules, normalized, List.flatMap_map]
    · have hmembers : ∀ e ∈ normalized tail, e.2.IsStandard := List.forall_mem_map.mpr htail
      cases hstandard hhead hmembers with
      | group hchildren => exact hchildren

/-! ### Members one by one -/

theorem standardMember_of_toStandard {node result : Node} (h : toStandard node = .ok result) :
    standardMember node = .ok result := by
  cases node with
  | group | interleaved => exact h
  | rule | bare => cases h

/-- A standard tree is its own standard form. -/
theorem IsStandard.standardMember_eq {t : Node} (h : t.IsStandard) : t.standardMember = .ok t := by
  induction h with
  | rule r => rfl
  | @group combinator flags children _ ih =>
    have hall : toStandardAll children = .ok children := by
      -- the members alone, without what makes their group standard
      clear * - ih
      induction children with
      | nil => rfl
      | cons child children ihc =>
        obtain ⟨hchild, hrest⟩ := List.forall_mem_cons.mp ih
        rw [toStandardAll_cons, hchild, ihc hrest]
        rfl
    rw [standardMember, toStandard, hall]
    rfl

theorem toStandardAll_eq_ok_iff {nodes results : List Node} :
    toStandardAll nodes = .ok results ↔
      List.Forall₂ (fun node result => standardMember node = .ok result) nodes results := by
  induction nodes generalizing results with
  | nil => simp [toStandardAll, eq_comm]
  | cons node nodes ih =>
    rw [toStandardAll_cons, List.forall₂_cons_left_iff]
    constructor
    · intro h
      obtain ⟨first, hfirst, h⟩ := Result.bind_eq_ok h
      obtain ⟨rest, hrest, h⟩ := Result.bind_eq_ok h
      exact ⟨first, rest, hfirst, ih.mp hrest, (Except.ok.inj h).symm⟩
    · rintro ⟨first, rest, hfirst, hrest, rfl⟩
      rw [hfirst, ih.mpr hrest]
      rfl

/-- The standard members of a sequence are a sequence with its combinators. -/
theorem exists_alternate_of_forall₂ {results : List Node}
    (h : List.Forall₂ (fun node result => standardMember node = .ok result)
      (alternate head tail) results) :
    ∃ head' tail', results = alternate head' tail' ∧ standardMember head = .ok head' ∧
      List.Forall₂ (fun e e' => e'.1 = e.1 ∧ standardMember e.2 = .ok e'.2) tail tail' := by
  induction tail generalizing head results with
  | nil =>
    obtain ⟨head', rest, hhead, hrest, rfl⟩ := List.forall₂_cons_left_iff.mp h
    obtain rfl := List.forall₂_nil_left_iff.mp hrest
    exact ⟨head', [], rfl, hhead, .nil⟩
  | cons e tail ih =>
    obtain ⟨head', turns, hhead, hturns, rfl⟩ := List.forall₂_cons_left_iff.mp h
    obtain ⟨sign, rest, hsign, hrest, rfl⟩ := List.forall₂_cons_left_iff.mp hturns
    obtain rfl := Except.ok.inj hsign
    obtain ⟨next', tail', rfl, hnext, htail⟩ := ih hrest
    exact ⟨head', (e.1, next') :: tail', rfl, hhead, .cons ⟨rfl, hnext⟩ htail⟩

end

/-! ### Trees -/

section
variable {flags : GroupFlags} {items : List Node} {node result : Node}

theorem truth_interleaved_nil (I : Interpretation) (flags : GroupFlags) :
    truth I (.interleaved flags []) = (flags.negated ^^ true) := rfl

/-- An interleaved group says what the sequence of its items says. -/
theorem truth_alternate (I : Interpretation) (flags : GroupFlags) (head : Node)
    (tail : List (String × Node)) :
    truth I (.interleaved flags (alternate head tail)) =
      (flags.negated ^^ I.sequence (truth I head) (values I (normalized tail))) := by
  have hmembers : everySecond (truths I (alternate head tail)) =
      truth I head :: tail.map fun e => truth I e.2 := by
    rw [truths_eq_map]
    induction tail generalizing head with
    | nil => rfl
    | cons e tail ih => exact congrArg (truth I head :: ·) (ih e.2)
  have hzip : ((normalized tail).map (·.1)).zip (tail.map fun e => truth I e.2) =
      values I (normalized tail) := by
    rw [normalized, values, List.map_map, List.zip_map', List.map_map]
    rfl
  rw [truth, hmembers, combinatorNames_alternate]
  exact congrArg (fun s => flags.negated ^^ I.sequence (truth I head) s) hzip

theorem rules_alternate (head : Node) (tail : List (String × Node)) :
    (alternate head tail).flatMap rules = rules head ++ tail.flatMap fun e => rules e.2 := by
  simp [alternate, List.flatMap_assoc]

/-- What the standard form of an interleaved group is. -/
theorem standardMember_interleaved (h : standardMember (.interleaved flags items) = .ok result) :
    items = [] ∧ result = .group (.text "and") flags [] ∨
      ∃ head tail head' tail', items = alternate head tail ∧ standardMember head = .ok head' ∧
        List.Forall₂ (fun e e' => e'.1 = e.1 ∧ standardMember e.2 = .ok e'.2) tail tail' ∧
        ofTurns flags (alternate head' tail') = .ok result := by
  rw [standardMember, toStandard] at h
  obtain ⟨_, hturns, h⟩ := Result.bind_eq_ok h
  obtain ⟨results, hresults, h⟩ := Result.bind_eq_ok h
  have hall := toStandardAll_eq_ok_iff.mp hresults
  by_cases hne : items = []
  · subst hne
    obtain rfl := List.forall₂_nil_left_iff.mp hall
    exact Or.inl ⟨rfl, (Except.ok.inj h).symm⟩
  · obtain ⟨head, tail, rfl, -⟩ := exists_alternate hturns hne
    obtain ⟨head', tail', rfl, hhead, htail⟩ := exists_alternate_of_forall₂ hall
    exact Or.inr ⟨head, tail, head', tail', rfl, hhead, htail, h⟩

theorem standardMember_group {combinator : Value} {children : List Node}
    (h : standardMember (.group combinator flags children) = .ok result) :
    ∃ results, List.Forall₂ (fun child result => standardMember child = .ok result)
      children results ∧ result = .group combinator flags results := by
  rw [standardMember, toStandard] at h
  obtain ⟨results, hresults, rfl⟩ := Result.map_eq_ok h
  exact ⟨results, toStandardAll_eq_ok_iff.mp hresults, rfl⟩

theorem forall_mem_alternate {Q : Node → Prop} {head : Node} {tail : List (String × Node)}
    (hhead : Q head) (hsign : ∀ name, Q (.bare (.text name))) (htail : ∀ e ∈ tail, Q e.2) :
    ∀ item ∈ alternate head tail, Q item := by
  refine List.forall_mem_cons.mpr ⟨hhead, List.forall_mem_flatMap.mpr fun e he => ?_⟩
  exact List.forall_mem_cons.mpr ⟨hsign e.1, List.forall_mem_singleton.mpr (htail e he)⟩

/-- What each of a row gives its counterpart, all counterparts have. -/
theorem forall_mem_right {A B : Type} {R : A → B → Prop} {Q : B → Prop} {as : List A} {bs : List B}
    (h : List.Forall₂ R as bs) (hgive : ∀ a ∈ as, ∀ b, R a b → Q b) : ∀ b ∈ bs, Q b := by
  induction h with
  | nil => simp
  | cons hab _ ih =>
    obtain ⟨hfirst, hrest⟩ := List.forall_mem_cons.mp hgive
    exact List.forall_mem_cons.mpr ⟨hfirst _ hab, ih hrest⟩

/-- What agrees for each of a row and its counterpart is the same row of values. -/
theorem map_eq_of_forall₂ {A B C : Type} {R : A → B → Prop} {f : A → C} {g : B → C} {as : List A}
    {bs : List B} (h : List.Forall₂ R as bs) (hagree : ∀ a b, R a b → g b = f a) :
    bs.map g = as.map f := by
  induction h with
  | nil => rfl
  | cons hab _ ih => rw [List.map_cons, List.map_cons, hagree _ _ hab, ih]

/-- An item of an interleaved group is a member of it, or a combinator between two. -/
theorem mem_turnMembers_or {items : List Node} (hturns : checkTurns items = .ok ()) :
    ∀ item ∈ items, item ∈ turnMembers items ∨ ∃ name, item = .bare (.text name) := by
  by_cases hne : items = []
  · simp [hne]
  · obtain ⟨head, tail, rfl, -⟩ := exists_alternate hturns hne
    rw [turnMembers_alternate]
    refine forall_mem_alternate (.inl List.mem_cons_self) (fun name => .inr ⟨name, rfl⟩) ?_
    exact fun e he => .inl (List.mem_cons_of_mem _ (List.mem_map_of_mem he))

theorem head_mem_alternate (head : Node) (tail : List (String × Node)) :
    head ∈ alternate head tail := List.mem_cons_self

theorem mem_alternate {head : Node} {tail : List (String × Node)} {e : String × Node}
    (h : e ∈ tail) : e.2 ∈ alternate head tail :=
  List.mem_cons_of_mem _ (List.mem_flatMap.mpr ⟨e, h, by simp⟩)

/-- **Standard forms from below.**  What holds of nodes and their standard forms
once it holds of their members, holds of all. -/
theorem standardMember_induct {P : Node → Node → Prop} (rule : ∀ r, P (.rule r) (.rule r))
    (bare : ∀ v, P (.bare v) (.bare v))
    (group : ∀ combinator flags children results, List.Forall₂ P children results →
      P (.group combinator flags children) (.group combinator flags results))
    (empty : ∀ flags, P (.interleaved flags []) (.group (.text "and") flags []))
    (sequence : ∀ flags head tail head' tail' result, P head head' →
      List.Forall₂ (fun e e' => e'.1 = e.1 ∧ P e.2 e'.2) tail tail' →
      ofTurns flags (alternate head' tail') = .ok result →
      P (.interleaved flags (alternate head tail)) result)
    (h : standardMember node = .ok result) : P node result := by
  induction node using induct generalizing result with
  | rule r =>
    obtain rfl := Except.ok.inj h
    exact rule r
  | bare v =>
    obtain rfl := Except.ok.inj h
    exact bare v
  | group combinator flags children ih =>
    obtain ⟨results, hall, rfl⟩ := standardMember_group h
    have hih : ∀ child ∈ children, ∀ result, standardMember child = .ok result → P child result :=
      fun child hc _ hr => ih child hc hr
    exact group combinator flags children results
      (((List.forall₂_and_left _ _).mpr ⟨hih, hall⟩).imp fun _ _ hr => hr.1 _ hr.2)
  | interleaved flags items ih =>
    rcases standardMember_interleaved h with
      ⟨rfl, rfl⟩ | ⟨head, tail, head', tail', rfl, hhead, htail, hresult⟩
    · exact empty flags
    · have hih : ∀ e ∈ tail, ∀ result, standardMember e.2 = .ok result → P e.2 result :=
        fun e he _ hr => ih e.2 (mem_alternate he) hr
      exact sequence flags head tail head' tail' result
        (ih head (head_mem_alternate head tail) hhead)
        (((List.forall₂_and_left _ _).mpr ⟨hih, htail⟩).imp fun _ _ he => ⟨he.2.1, he.1 _ he.2.2⟩)
        hresult

/-- **The standard form of a tree has its rules**, from left to right. -/
theorem rules_of_standardMember (h : standardMember node = .ok result) :
    rules result = rules node := by
  refine standardMember_induct (P := fun node result => rules result = rules node)
    (fun _ => rfl) (fun _ => rfl) ?_ (fun _ => by simp) ?_ h
  · intro combinator flags children results hall
    rw [rules_group, rules_group, List.flatMap_def, List.flatMap_def,
      map_eq_of_forall₂ hall fun _ _ hchild => hchild]
  · intro flags head tail head' tail' result hhead htail hresult
    obtain ⟨combinator, children, rfl, -, hrules, -⟩ := exists_group_of_ofTurns hresult
    rw [rules_group, hrules, rules_interleaved, rules_alternate, hhead, List.flatMap_def,
      List.flatMap_def, map_eq_of_forall₂ htail fun _ _ he => he.2]

theorem rules_of_toStandard (h : toStandard node = .ok result) : rules result = rules node :=
  rules_of_standardMember (standardMember_of_toStandard h)

/-- **The standard form of a tree has its truth value.** -/
theorem truth_of_standardMember (I : Interpretation) (h : standardMember node = .ok result) :
    truth I result = truth I node := by
  refine standardMember_induct (P := fun node result => truth I result = truth I node)
    (fun _ => rfl) (fun _ => rfl) ?_ (fun _ => ?_) ?_ h
  · intro combinator flags children results hall
    rw [truth_group, truth_group, map_eq_of_forall₂ hall fun _ _ hchild => hchild]
  · rw [truth_group, truth_interleaved_nil]
    rfl
  · intro flags head tail head' tail' result hhead htail hresult
    obtain ⟨combinator, children, rfl, htruth, -⟩ := exists_group_of_ofTurns hresult
    have hvalues : values I (normalized tail') = values I (normalized tail) := by
      rw [values, values, normalized, normalized, List.map_map, List.map_map]
      exact map_eq_of_forall₂ htail fun e e' he => by simp [he.1, he.2]
    rw [truth_group, htruth, truth_alternate, hhead, hvalues]

/-! ### Trees that have no standard form -/

/-- Two combinators of the items differ, and one of them has no order. -/
def IsMixture (items : List Node) : Prop :=
  ∃ a ∈ (turnCombinators items).map combinatorName,
    ∃ b ∈ (turnCombinators items).map combinatorName, a ≠ b ∧ b ∉ precedence

instance (items : List Node) : Decidable (IsMixture items) :=
  inferInstanceAs (Decidable (∃ a ∈ _, ∃ b ∈ _, a ≠ b ∧ b ∉ precedence))

/-- Some interleaved group of the tree is such a mixture. -/
inductive HasMixture : Node → Prop where
  | here {flags : GroupFlags} {items : List Node} :
      IsMixture items → HasMixture (.interleaved flags items)
  | item {flags : GroupFlags} {items : List Node} {item : Node} :
      item ∈ items → HasMixture item → HasMixture (.interleaved flags items)
  | child {combinator : Value} {flags : GroupFlags} {children : List Node} {child : Node} :
      child ∈ children → HasMixture child → HasMixture (.group combinator flags children)

/-- The trees of rules and groups: members and combinators take turns in the
interleaved ones. -/
inductive IsTree : Node → Prop where
  | rule (r : Rule) : IsTree (.rule r)
  | group {combinator : Value} {flags : GroupFlags} {children : List Node} :
      (∀ child ∈ children, IsTree child) → IsTree (.group combinator flags children)
  | interleaved {flags : GroupFlags} {items : List Node} :
      checkTurns items = .ok () → (∀ m ∈ turnMembers items, IsTree m) →
      IsTree (.interleaved flags items)

theorem IsStandard.isTree {t : Node} (h : t.IsStandard) : t.IsTree := by
  induction h with
  | rule r => exact .rule r
  | group _ ih => exact .group ih

theorem not_hasMixture_rule (r : Rule) : ¬HasMixture (.rule r) := fun h => by cases h

theorem not_hasMixture_bare (v : Value) : ¬HasMixture (.bare v) := fun h => by cases h

/-- An interleaved group without a mixture of its own or in its items has none. -/
theorem not_hasMixture_interleaved (hitems : ¬IsMixture items)
    (h : ∀ item ∈ items, ¬HasMixture item) : ¬HasMixture (.interleaved flags items) := by
  intro hmixture
  cases hmixture with
  | here hhere => exact hitems hhere
  | item hmem hitem => exact h _ hmem hitem

theorem isMixture_alternate_iff (head : Node) (tail : List (String × Node)) :
    IsMixture (alternate head tail) ↔
      ∃ a ∈ normalized tail, ∃ b ∈ normalized tail, a.1 ≠ b.1 ∧ b.1 ∉ precedence := by
  rw [IsMixture, combinatorNames_alternate]
  simp only [List.mem_map, exists_exists_and_eq_and]

/-- The members of a sequence make a group unless its combinators are a
mixture. -/
theorem ofTurns_alternate_eq_ok_iff {head : Node} {tail : List (String × Node)} :
    (∃ node, ofTurns flags (alternate head tail) = .ok node) ↔
      ¬IsMixture (alternate head tail) := by
  have hjoin := @joinByPrecedence_eq_ok_iff head (normalized tail)
  rw [isMixture_alternate_iff, ← hjoin]
  by_cases hne : tail = []
  · subst hne
    exact iff_of_true ⟨_, ofTurns_alternate_nil flags head⟩ ⟨head, rfl⟩
  · rw [ofTurns_alternate flags head hne]
    cases joinByPrecedence head (normalized tail) with
    | error e => exact iff_of_false (fun ⟨_, h⟩ => by cases h) fun ⟨_, h⟩ => by cases h
    | ok node => exact iff_of_true ⟨_, rfl⟩ ⟨node, rfl⟩

/-- A mixture stays one when its members change. -/
theorem isMixture_congr {head head' : Node} {tail tail' : List (String × Node)}
    (h : tail'.map (·.1) = tail.map (·.1)) :
    IsMixture (alternate head' tail') ↔ IsMixture (alternate head tail) := by
  rw [IsMixture, IsMixture, combinatorNames_alternate, combinatorNames_alternate, normalized_names,
    normalized_names, h]

theorem map_fst_of_forall₂ {R : String × Node → String × Node → Prop}
    {tail tail' : List (String × Node)}
    (h : List.Forall₂ (fun e e' => e'.1 = e.1 ∧ R e e') tail tail') :
    tail'.map (·.1) = tail.map (·.1) :=
  map_eq_of_forall₂ h fun _ _ he => he.1

/-- Nodes have standard forms in a row if each of them has one. -/
theorem exists_toStandardAll_iff {nodes : List Node} :
    (∃ results, toStandardAll nodes = .ok results) ↔
      ∀ node ∈ nodes, ∃ result, standardMember node = .ok result := by
  simp only [toStandardAll_eq_ok_iff]
  induction nodes with
  | nil => exact iff_of_true ⟨[], .nil⟩ (by simp)
  | cons node nodes ih =>
    rw [List.forall_mem_cons, ← ih]
    constructor
    · rintro ⟨_, _ | ⟨hnode, hrest⟩⟩
      exact ⟨⟨_, hnode⟩, _, hrest⟩
    · rintro ⟨⟨result, hnode⟩, results, hrest⟩
      exact ⟨_, .cons hnode hrest⟩

/-- A tree with a mixture has no standard form. -/
theorem HasMixture.standardMember_ne (h : HasMixture node) (result : Node) :
    standardMember node ≠ .ok result := by
  induction h generalizing result with
  | @here flags items hmixture =>
    intro h
    rcases standardMember_interleaved h with
      ⟨rfl, -⟩ | ⟨head, tail, head', tail', rfl, -, htail, hresult⟩
    · obtain ⟨a, ha, -⟩ := hmixture
      cases ha
    · exact ofTurns_alternate_eq_ok_iff.mp ⟨result, hresult⟩
        ((isMixture_congr (map_fst_of_forall₂ htail)).mpr hmixture)
  | @item flags items item hmem _ ih =>
    intro h
    rw [standardMember, toStandard] at h
    obtain ⟨_, -, h⟩ := Result.bind_eq_ok h
    obtain ⟨results, hresults, -⟩ := Result.bind_eq_ok h
    obtain ⟨r, hr⟩ := exists_toStandardAll_iff.mp ⟨results, hresults⟩ item hmem
    exact ih r hr
  | @child combinator flags children child hmem _ ih =>
    intro h
    rw [standardMember, toStandard] at h
    obtain ⟨results, hresults, -⟩ := Result.map_eq_ok h
    obtain ⟨r, hr⟩ := exists_toStandardAll_iff.mp ⟨results, hresults⟩ child hmem
    exact ih r hr

/-- A tree without a mixture has a standard form. -/
theorem IsTree.exists_standardMember (ht : IsTree node) (h : ¬HasMixture node) :
    ∃ result, standardMember node = .ok result := by
  induction ht with
  | rule r => exact ⟨_, rfl⟩
  | @group combinator flags children _ ih =>
    obtain ⟨results, hresults⟩ := exists_toStandardAll_iff.mpr fun child hc =>
      ih child hc fun hchild => h (.child hc hchild)
    exact ⟨.group combinator flags results, by rw [standardMember, toStandard, hresults]; rfl⟩
  | @interleaved flags items hturns _ ih =>
    have hitems : ∀ item ∈ items, ∃ result, standardMember item = .ok result := by
      intro item hitem
      rcases mem_turnMembers_or hturns item hitem with hmember | ⟨name, rfl⟩
      · exact ih item hmember fun hmixture => h (.item hitem hmixture)
      · exact ⟨_, rfl⟩
    by_cases hne : items = []
    · subst hne
      exact ⟨.group (.text "and") flags [], by rw [standardMember, toStandard]; rfl⟩
    obtain ⟨head, tail, rfl, -⟩ := exists_alternate hturns hne
    obtain ⟨results, hresults⟩ := exists_toStandardAll_iff.mpr hitems
    obtain ⟨head', tail', rfl, -, htail'⟩ :=
      exists_alternate_of_forall₂ (toStandardAll_eq_ok_iff.mp hresults)
    obtain ⟨result, hresult⟩ := ofTurns_alternate_eq_ok_iff.mpr fun hmixture =>
      h (.here ((isMixture_congr (map_fst_of_forall₂ htail')).mp hmixture))
    exact ⟨result, by rw [standardMember, toStandard, hturns, hresults]; exact hresult⟩

theorem checkTurnsFrom_eq_error {items : List Node} {position : Nat} {e : Error}
    (h : checkTurnsFrom position items = .error e) : ∃ fault, e = .invalidTree fault := by
  fun_induction checkTurnsFrom position items with
  | case1 => cases h
  | case2 _ _ _ _ ih => exact ih h
  | case3 => exact ⟨_, (Except.error.inj h).symm⟩
  | case4 _ _ _ _ ih => exact ih h
  | case5 _ _ _ _ _ ih => exact ih h
  | case6 => exact ⟨_, (Except.error.inj h).symm⟩

theorem checkTurns_eq_error {items : List Node} {e : Error} (h : checkTurns items = .error e) :
    ∃ fault, e = .invalidTree fault := by
  rw [checkTurns] at h
  split at h
  · exact ⟨_, (Except.error.inj h).symm⟩
  · exact checkTurnsFrom_eq_error h

theorem joinByPrecedence_eq_error {head : Node} {tail : List (String × Node)} {e : Error}
    (h : joinByPrecedence head tail = .error e) : ∃ fault, e = .invalidTree fault := by
  unfold joinByPrecedence at h
  split at h
  · cases h
  · split at h
    · cases h
    · split at h
      · cases h
      · exact ⟨_, (Except.error.inj h).symm⟩

theorem ofTurns_eq_error {items : List Node} {e : Error} (h : ofTurns flags items = .error e) :
    ∃ fault, e = .invalidTree fault := by
  unfold ofTurns at h
  split at h
  · cases h
  · split at h
    · cases h
    · exact joinByPrecedence_eq_error (Result.map_eq_error h)

theorem toStandardAll_eq_error {nodes : List Node} {e : Error}
    (h : toStandardAll nodes = .error e) : ∃ node ∈ nodes, standardMember node = .error e := by
  induction nodes with
  | nil => cases h
  | cons node nodes ih =>
    rw [toStandardAll_cons] at h
    rcases Result.bind_eq_error h with hnode | ⟨first, -, h⟩
    · exact ⟨node, List.mem_cons_self, hnode⟩
    · rcases Result.bind_eq_error h with hrest | ⟨rest, -, h⟩
      · obtain ⟨m, hm, he⟩ := ih hrest
        exact ⟨m, List.mem_cons_of_mem _ hm, he⟩
      · cases h

/-- Whatever has no standard form is a malformed tree. -/
theorem standardMember_eq_error {e : Error} (h : standardMember node = .error e) :
    ∃ fault, e = .invalidTree fault := by
  induction node using induct with
  | rule r => cases h
  | bare v => cases h
  | group combinator flags children ih =>
    rw [standardMember, toStandard] at h
    obtain ⟨child, hc, hchild⟩ := toStandardAll_eq_error (Result.map_eq_error h)
    exact ih child hc hchild
  | interleaved flags items ih =>
    rw [standardMember, toStandard] at h
    rcases Result.bind_eq_error h with hturns | ⟨_, -, h⟩
    · exact checkTurns_eq_error hturns
    · rcases Result.bind_eq_error h with hall | ⟨results, -, h⟩
      · obtain ⟨item, hitem, he⟩ := toStandardAll_eq_error hall
        exact ih item hitem he
      · exact ofTurns_eq_error h

/-- A standard form is standard. -/
theorem IsTree.isStandard (ht : IsTree node) (h : standardMember node = .ok result) :
    IsStandard result := by
  revert ht
  refine standardMember_induct (P := fun node result => IsTree node → IsStandard result)
    (fun r _ => .rule r) (fun _ ht => by cases ht) ?_ (fun _ _ => .group (by simp)) ?_ h
  · intro combinator flags children results hall ht
    cases ht with
    | group hchildren =>
      exact .group (forall_mem_right hall fun child hmem _ hchild => hchild (hchildren child hmem))
  · intro flags head tail head' tail' result hhead htail hresult ht
    cases ht with
    | interleaved hturns hmembers =>
      rw [turnMembers_alternate] at hmembers
      obtain ⟨hfirst, hrest⟩ := List.forall_mem_cons.mp hmembers
      obtain ⟨combinator, children, rfl, -, -, hstandard⟩ := exists_group_of_ofTurns hresult
      refine .group (hstandard (hhead hfirst) (forall_mem_right htail fun e he e' hmember => ?_))
      exact hmember.2 (hrest e.2 (List.mem_map_of_mem he))

end

/-- **Precedence.**  A group has no standard form exactly if an interleaved group
in it mixes a combinator that has no order with another one.  Otherwise its
standard form has no interleaved group, the same rules in the same order, and
under every interpretation the same truth value. -/
theorem toStandard_by_precedence {t : Node} (ht : t.IsTree) (hgroup : t.isGroup = true) :
    ((∃ fault, t.toStandard = .error (.invalidTree fault)) ↔ t.HasMixture) ∧
      (¬t.HasMixture → ∃ s, t.toStandard = .ok s ∧ s.IsStandard ∧ s.rules = t.rules ∧
        ∀ I : Interpretation, s.truth I = t.truth I) := by
  have hmember : t.standardMember = t.toStandard := by
    cases t with
    | group | interleaved => rfl
    | rule | bare => cases hgroup
  rw [← hmember]
  refine ⟨⟨fun ⟨fault, h⟩ => ?_, fun h => ?_⟩, fun h => ?_⟩
  · refine by_contra fun hnone => ?_
    obtain ⟨s, hs⟩ := ht.exists_standardMember hnone
    rw [hs] at h
    cases h
  · cases hs : t.standardMember with
    | ok s => exact absurd hs (h.standardMember_ne s)
    | error e =>
      obtain ⟨fault, rfl⟩ := standardMember_eq_error hs
      exact ⟨fault, rfl⟩
  · obtain ⟨s, hs⟩ := ht.exists_standardMember h
    exact ⟨s, hs, ht.isStandard hs, rules_of_standardMember hs,
      fun I => truth_of_standardMember I hs⟩

/-- The negation of `a and b or (c nand d) xor e`. -/
def precedenceSpecimen : Node :=
  let condition (field : String) : Node := .rule (Rule.of field .eq (.int 1))
  .interleaved { negated := true }
    [condition "a", .bare (.text " AND "), condition "b", .bare (.text "or"),
      .interleaved {} [condition "c", .bare (.text "nand"), condition "d"],
      .bare (.text "xor"), condition "e"]

theorem toStandard_by_precedence_specimen :
    precedenceSpecimen.IsTree ∧ precedenceSpecimen.isGroup = true ∧
      ¬precedenceSpecimen.HasMixture ∧
      ∃ s, precedenceSpecimen.toStandard = .ok s ∧ s.IsStandard ∧
        s.rules = precedenceSpecimen.rules ∧
        ∀ I : Interpretation, s.truth I = precedenceSpecimen.truth I := by
  have htree : precedenceSpecimen.IsTree := by
    refine .interleaved rfl ?_
    simp only [turnMembers, everySecond, List.forall_mem_cons]
    refine ⟨.rule _, .rule _, .interleaved rfl ?_, .rule _, by simp⟩
    simp only [turnMembers, everySecond, List.forall_mem_cons]
    exact ⟨.rule _, .rule _, by simp⟩
  have hmixture : ¬precedenceSpecimen.HasMixture := by
    refine not_hasMixture_interleaved (by decide) ?_
    simp only [List.forall_mem_cons, not_hasMixture_rule, not_hasMixture_bare, not_false_iff,
      true_and]
    refine ⟨not_hasMixture_interleaved (by decide) ?_, by simp⟩
    simp [not_hasMixture_rule, not_hasMixture_bare]
  exact ⟨htree, rfl, hmixture, (toStandard_by_precedence htree rfl).2 hmixture⟩

end Node
end RuleTree
