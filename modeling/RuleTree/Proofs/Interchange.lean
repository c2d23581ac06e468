import RuleTree.Node.Exchange
import RuleTree.Proofs.StandardForm

/-! # Trees exchanged as maps

A tree that is written as a map and read again is the same tree, ids included, as
long as a combinator marks each of its interleaved groups as interleaved
(`Node.ofValue_toValue_iff`).  Nothing else tells the maps of the two kinds of group
apart: an interleaved group with a single member, or with none, is read as a standard
one, and the interleaved group that it is in refuses that (`Node.ofValue_toValue_unmarked`).
-/
namespace RuleTree
namespace Node

/-! ### Entries -/

/-- An id is written unless it is null. -/
theorem idEntry_true (id : Value) :
    id = .null ∧ idEntry true id = [] ∨ idEntry true id = [("id", id)] := by
  cases id with
  | null => exact .inl ⟨rfl, rfl⟩
  | _ => exact .inr rfl

/-- The map of a rule has all that there is to a rule whose value is a literal or a
field. -/
theorem ruleOfEntries_ruleEntries {r : Rule} (h : r.source = .value ∨ r.source = .field) :
    ruleOfEntries (ruleEntries true r) = .ok (.rule r) := by
  obtain ⟨field, operator, value, source, disabled, id⟩ := r
  have hsource : source = .value ∨ source = .field := h
  rw [ruleEntries]
  rcases idEntry_true id with ⟨rfl, hid⟩ | hid <;> rw [hid] <;>
    rcases hsource with rfl | rfl <;> cases disabled <;> rfl

theorem lookup_rules_ruleEntries (r : Rule) :
    Value.lookup "rules" (ruleEntries true r) = none := by
  rw [ruleEntries]
  rcases idEntry_true r.id with ⟨-, hid⟩ | hid <;> rw [hid] <;>
    cases r.comparesFields <;> cases r.disabled <;> rfl

section
variable (combinator : Option Value) (flags : GroupFlags) (rules : List Value)

/-- The map of a group, standard or interleaved. -/
def groupMap : List (String × Value) :=
  groupEntries true (combinator.map fun c => ("combinator", c)).toList flags
    ++ [("rules", .list rules)]

theorem flagsOfEntries_groupMap : flagsOfEntries (groupMap combinator flags rules) = flags := by
  obtain ⟨negated, disabled, id⟩ := flags
  rw [groupMap, groupEntries]
  rcases idEntry_true id with ⟨rfl, hid⟩ | hid <;> rw [hid] <;>
    cases combinator <;> cases negated <;> cases disabled <;> rfl

theorem lookup_combinator_groupMap :
    Value.lookup "combinator" (groupMap combinator flags rules) = combinator := by
  rw [groupMap, groupEntries]
  rcases idEntry_true flags.id with ⟨-, hid⟩ | hid <;> rw [hid] <;>
    cases combinator <;> cases flags.negated <;> cases flags.disabled <;> rfl

theorem lookup_rules_groupMap :
    Value.lookup "rules" (groupMap combinator flags rules) = some (.list rules) := by
  rw [groupMap, groupEntries]
  rcases idEntry_true flags.id with ⟨-, hid⟩ | hid <;> rw [hid] <;>
    cases combinator <;> cases flags.negated <;> cases flags.disabled <;> rfl

end

/-! ### Reading one layer -/

theorem ofValue_of_lookup_eq_none {entries : List (String × Value)}
    (h : Value.lookup "rules" entries = none) : ofValue (.map entries) = ruleOfEntries entries := by
  rw [ofValue]
  split
  case h_1 => rfl
  case h_2 hrules => rw [h] at hrules; cases hrules
  case h_3 hrules => rw [h] at hrules; cases hrules

theorem ofValue_of_lookup {entries : List (String × Value)} {rules : List Value}
    (h : Value.lookup "rules" entries = some (.list rules)) :
    ofValue (.map entries) = match Value.lookup "combinator" entries with
      | none =>
        if rules.any isText then itemsOfValues rules >>= interleave (flagsOfEntries entries)
        else (childrenOfValues rules).map (.group (.text "and") (flagsOfEntries entries))
      | some combinator =>
        (childrenOfValues rules).map (.group combinator (flagsOfEntries entries)) := by
  rw [ofValue]
  split
  case h_1 hnone => rw [h] at hnone; cases hnone
  case h_2 rules' hrules =>
    rw [h] at hrules
    obtain rfl : rules = rules' := Value.list.inj (Option.some.inj hrules)
    rfl
  case h_3 v hother hrules =>
    rw [h] at hrules
    exact absurd (Option.some.inj hrules).symm (hother rules)

theorem ofValue_ruleEntries {r : Rule} (h : r.source = .value ∨ r.source = .field) :
    ofValue (.map (ruleEntries true r)) = .ok (.rule r) := by
  rw [ofValue_of_lookup_eq_none (lookup_rules_ruleEntries r)]
  exact ruleOfEntries_ruleEntries h

section
variable {flags : GroupFlags} {rules : List Value}

/-- A group with a combinator is standard. -/
theorem ofValue_groupMap_some (combinator : Value) :
    ofValue (.map (groupMap (some combinator) flags rules)) =
      (childrenOfValues rules).map (.group combinator flags) := by
  rw [ofValue_of_lookup (lookup_rules_groupMap _ _ _), lookup_combinator_groupMap,
    flagsOfEntries_groupMap]

/-- A group with combinators among its rules is interleaved. -/
theorem ofValue_groupMap_of_any (h : rules.any isText = true) :
    ofValue (.map (groupMap none flags rules)) = itemsOfValues rules >>= interleave flags := by
  rw [ofValue_of_lookup (lookup_rules_groupMap _ _ _), lookup_combinator_groupMap,
    flagsOfEntries_groupMap]
  exact if_pos h

/-- A group without any combinator is standard. -/
theorem ofValue_groupMap_of_not_any (h : rules.any isText = false) :
    ofValue (.map (groupMap none flags rules)) =
      (childrenOfValues rules).map (.group (.text "and") flags) := by
  rw [ofValue_of_lookup (lookup_rules_groupMap _ _ _), lookup_combinator_groupMap,
    flagsOfEntries_groupMap]
  exact if_neg (by rw [h]; simp)

end

/-! ### Trees -/

/-- Some interleaved group of the tree has fewer than two members, so that no
combinator marks it as interleaved. -/
inductive HasUnmarked : Node → Prop where
  | here {flags : GroupFlags} {items : List Node} :
      items.length ≤ 1 → HasUnmarked (.interleaved flags items)
  | item {flags : GroupFlags} {items : List Node} {item : Node} :
      item ∈ items → HasUnmarked item → HasUnmarked (.interleaved flags items)
  | child {combinator : Value} {flags : GroupFlags} {children : List Node} {child : Node} :
      child ∈ children → HasUnmarked child → HasUnmarked (.group combinator flags children)

section
variable {combinator : Value} {flags : GroupFlags} {nodes : List Node}

theorem not_hasUnmarked_rule (r : Rule) : ¬(Node.rule r).HasUnmarked := by
  intro h
  cases h

theorem not_hasUnmarked_bare (v : Value) : ¬(Node.bare v).HasUnmarked := by
  intro h
  cases h

theorem not_hasUnmarked_group :
    ¬(Node.group combinator flags nodes).HasUnmarked ↔ ∀ child ∈ nodes, ¬child.HasUnmarked := by
  constructor
  · intro h child hmem hchild
    exact h (.child hmem hchild)
  · intro h hgroup
    cases hgroup with
    | child hmem hchild => exact h _ hmem hchild

theorem not_hasUnmarked_interleaved :
    ¬(Node.interleaved flags nodes).HasUnmarked ↔
      2 ≤ nodes.length ∧ ∀ item ∈ nodes, ¬item.HasUnmarked := by
  constructor
  · intro h
    refine ⟨?_, fun item hmem hitem => h (.item hmem hitem)⟩
    by_contra hshort
    exact h (.here (by omega))
  · rintro ⟨hlength, hitems⟩ hgroup
    cases hgroup with
    | here hshort => omega
    | item hmem hitem => exact hitems _ hmem hitem

end

/-- What a node is written as is read as the node exactly if its interleaved groups
are marked. -/
structure Exchanges (t : Node) (v : Value) : Prop where
  written : t.toValue true = .ok v
  isMap : isText v = false
  read : ofValue v = .ok t ↔ ¬t.HasUnmarked

theorem childrenOfValues_cons {v : Value} (hv : isText v = false) (rest : List Value) :
    childrenOfValues (v :: rest) = (do
      let node ← ofValue v
      return node :: (← childrenOfValues rest)) := by
  cases v with
  | text => cases hv
  | _ => rw [childrenOfValues]; simp

theorem itemsOfValues_cons {v : Value} (hv : isText v = false) (rest : List Value) :
    itemsOfValues (v :: rest) = (do
      let node ← ofValue v
      return node :: (← itemsOfValues rest)) := by
  cases v with
  | text => cases hv
  | _ => rw [itemsOfValues]; simp

theorem itemsOfValues_text (s : String) (rest : List Value) :
    itemsOfValues (.text s :: rest) = (do
      let node ← .ok (.bare (.text s))
      return node :: (← itemsOfValues rest)) := by
  rw [itemsOfValues]
  cases itemsOfValues rest <;> rfl

/-- Two steps give the items of a list if they give its head and its rest. -/
theorem cons_eq_ok_iff {x : Result Node} {xs : Result (List Node)} {node : Node}
    {nodes : List Node} :
    (do let n ← x; return n :: (← xs) : Result (List Node)) = .ok (node :: nodes) ↔
      x = .ok node ∧ xs = .ok nodes := by
  constructor
  · intro h
    obtain ⟨n, hn, h⟩ := Result.bind_eq_ok h
    obtain ⟨ns, hns, h⟩ := Result.bind_eq_ok h
    obtain ⟨rfl, rfl⟩ := List.cons.inj (Except.ok.inj h)
    exact ⟨hn, hns⟩
  · rintro ⟨rfl, rfl⟩
    rfl

/-- The children of a standard group are exchanged one by one. -/
theorem exists_childValues {children : List Node} (h : ∀ child ∈ children, ∃ v, Exchanges child v) :
    ∃ vs, childValues true children = .ok vs ∧
      (childrenOfValues vs = .ok children ↔ ∀ child ∈ children, ¬child.HasUnmarked) := by
  induction children with
  | nil => exact ⟨[], rfl, by simp [childrenOfValues]⟩
  | cons child children ih =>
    obtain ⟨⟨v, hv⟩, hrest⟩ := List.forall_mem_cons.mp h
    obtain ⟨vs, hwritten, hread⟩ := ih hrest
    refine ⟨v :: vs, ?_, ?_⟩
    · rw [childValues, hv.written, hwritten]
      rfl
    · rw [childrenOfValues_cons hv.isMap, cons_eq_ok_iff, hv.read, hread, List.forall_mem_cons]

theorem itemValues_cons {item : Node} {v : Value} (h : Exchanges item v) (rest : List Node) :
    itemValues true (item :: rest) = (do
      let vs ← itemValues true rest
      return v :: vs) := by
  have hwritten := h.written
  cases item with
  | bare => cases hwritten
  | _ =>
    rw [itemValues, hwritten]
    · rfl
    · intro _ hbare
      cases hbare

/-- The members of an interleaved group are exchanged one by one, and its combinators
are texts. -/
theorem exists_itemValues {items : List Node}
    (h : ∀ item ∈ items, (∃ s, item = .bare (.text s)) ∨ ∃ v, Exchanges item v) :
    ∃ vs, itemValues true items = .ok vs ∧ vs.any isText = items.any isCombinator ∧
      (itemsOfValues vs = .ok items ↔ ∀ item ∈ items, ¬item.HasUnmarked) := by
  induction items with
  | nil => exact ⟨[], rfl, rfl, by simp [itemsOfValues]⟩
  | cons item items ih =>
    obtain ⟨hitem, hrest⟩ := List.forall_mem_cons.mp h
    obtain ⟨vs, hwritten, htexts, hread⟩ := ih hrest
    rcases hitem with ⟨s, rfl⟩ | ⟨v, hv⟩
    · refine ⟨.text s :: vs, ?_, rfl, ?_⟩
      · rw [itemValues, hwritten]
        rfl
      · rw [itemsOfValues_text, cons_eq_ok_iff, hread, List.forall_mem_cons]
        exact and_congr_left' (iff_of_true rfl (not_hasUnmarked_bare _))
    · refine ⟨v :: vs, ?_, ?_, ?_⟩
      · rw [itemValues_cons hv, hwritten]
        rfl
      · have hcombinator : item.isCombinator = false := by
          have hitem := hv.written
          cases item with
          | bare => cases hitem
          | _ => rfl
        rw [List.any_cons, List.any_cons, hv.isMap, hcombinator, htexts]
      · rw [itemsOfValues_cons hv.isMap, cons_eq_ok_iff, hv.read, hread, List.forall_mem_cons]

/-- The items of an interleaved group have a combinator among them if there are at least
two members. -/
theorem any_isCombinator {items : List Node} (h : checkTurns items = .ok ()) :
    items.any isCombinator = true ↔ 2 ≤ items.length := by
  by_cases hne : items = []
  · subst hne
    simp
  · obtain ⟨head, tail, rfl, hhead, -⟩ := exists_alternate h hne
    have hmember : head.isCombinator = false := by cases hhead <;> rfl
    cases tail with
    | nil => simp [alternate, hmember]
    | cons e tail =>
      have hmark : Node.bare (.text e.1) ∈ head.alternate (e :: tail) := by simp [alternate]
      have hmarked : (head.alternate (e :: tail)).any isCombinator = true :=
        List.any_eq_true.mpr ⟨_, hmark, rfl⟩
      refine iff_of_true hmarked ?_
      rw [length_alternate, List.length_cons]
      omega

theorem exchanges_rule {r : Rule} (h : r.source = .value ∨ r.source = .field) :
    Exchanges (.rule r) (.map (ruleEntries true r)) where
  written := rfl
  isMap := rfl
  read := iff_of_true (ofValue_ruleEntries h) (not_hasUnmarked_rule r)

theorem exchanges_group {combinator : Value} {flags : GroupFlags} {children : List Node}
    {vs : List Value} (hwritten : childValues true children = .ok vs)
    (hread : childrenOfValues vs = .ok children ↔ ∀ child ∈ children, ¬child.HasUnmarked) :
    Exchanges (.group combinator flags children) (.map (groupMap (some combinator) flags vs)) where
  written := by
    rw [toValue, hwritten]
    rfl
  isMap := rfl
  read := by
    rw [ofValue_groupMap_some, not_hasUnmarked_group, ← hread]
    constructor
    · intro h
      obtain ⟨nodes, hnodes, h⟩ := Result.map_eq_ok h
      obtain rfl := (Node.group.inj h).2.2
      exact hnodes
    · intro h
      rw [h]
      rfl

theorem exchanges_interleaved {flags : GroupFlags} {items : List Node} {vs : List Value}
    (hturns : checkTurns items = .ok ()) (hwritten : itemValues true items = .ok vs)
    (htexts : vs.any isText = items.any isCombinator)
    (hread : itemsOfValues vs = .ok items ↔ ∀ item ∈ items, ¬item.HasUnmarked) :
    Exchanges (.interleaved flags items) (.map (groupMap none flags vs)) where
  written := by
    rw [toValue, hwritten]
    rfl
  isMap := rfl
  read := by
    rw [not_hasUnmarked_interleaved, ← any_isCombinator hturns, ← htexts, ← hread]
    cases hmarked : vs.any isText with
    | true =>
      rw [ofValue_groupMap_of_any hmarked]
      constructor
      · intro h
        obtain ⟨nodes, hnodes, h⟩ := Result.bind_eq_ok h
        obtain ⟨_, -, h⟩ := Result.bind_eq_ok h
        obtain rfl := (Node.interleaved.inj (Except.ok.inj h)).2
        exact ⟨rfl, hnodes⟩
      · rintro ⟨-, h⟩
        rw [h, Result.ok_bind, interleave, hturns]
        rfl
    | false =>
      -- without a combinator the group is read as a standard one
      rw [ofValue_groupMap_of_not_any hmarked]
      refine iff_of_false ?_ (by simp)
      intro h
      obtain ⟨nodes, -, h⟩ := Result.map_eq_ok h
      cases h

/-- Every tree is exchanged. -/
theorem exists_exchanges {t : Node} (ht : t.IsTree)
    (h : ∀ r ∈ t.rules, r.source = .value ∨ r.source = .field) : ∃ v, Exchanges t v := by
  induction ht with
  | rule r => exact ⟨_, exchanges_rule (h r (by simp))⟩
  | @group combinator flags children _ ih =>
    rw [rules_group] at h
    obtain ⟨vs, hwritten, hread⟩ := exists_childValues fun child hchild =>
      ih child hchild fun r hr => h r (List.mem_flatMap.mpr ⟨child, hchild, hr⟩)
    exact ⟨_, exchanges_group hwritten hread⟩
  | @interleaved flags items hturns _ ih =>
    rw [rules_interleaved] at h
    have hitems : ∀ item ∈ items, (∃ s, item = .bare (.text s)) ∨ ∃ v, Exchanges item v := by
      intro item hitem
      rcases mem_turnMembers_or hturns item hitem with hmember | hsign
      · exact .inr (ih item hmember fun r hr => h r (List.mem_flatMap.mpr ⟨item, hitem, hr⟩))
      · exact .inl hsign
    obtain ⟨vs, hwritten, htexts, hread⟩ := exists_itemValues hitems
    exact ⟨_, exchanges_interleaved hturns hwritten htexts hread⟩

/-- **Interchange.**  Every tree is written as a map, and the map is read as the very
same tree, ids included, exactly if every interleaved group in it has two members or
more. -/
theorem ofValue_toValue_iff {t : Node} (ht : t.IsTree)
    (hsources : ∀ r ∈ t.rules, r.source = .value ∨ r.source = .field) :
    ∃ v, t.toValue true = .ok v ∧ (ofValue v = .ok t ↔ ¬t.HasUnmarked) := by
  obtain ⟨v, hv⟩ := exists_exchanges ht hsources
  exact ⟨v, hv.written, hv.read⟩

/-- The rule `name = 1`. -/
def isOne (name : String) (id : Value) : Node :=
  .rule { Rule.of name .eq (.int 1) with id := id }

/-- A marked interleaved group, with ids, in a standard group. -/
def exchangeSpecimen : Node :=
  .group (.text "or") { negated := true }
    [.interleaved { id := .text "g" }
      [isOne "a" (.int 1), .bare (.text "and"), isOne "b" .null]]

theorem ofValue_toValue_specimen :
    exchangeSpecimen.IsTree ∧ (∀ r ∈ exchangeSpecimen.rules, r.source = .value) ∧
      ∃ v, exchangeSpecimen.toValue true = .ok v ∧ ofValue v = .ok exchangeSpecimen := by
  have htree : exchangeSpecimen.IsTree := by
    refine .group ?_
    simp only [List.forall_mem_cons]
    refine ⟨.interleaved rfl ?_, by simp⟩
    simp only [turnMembers, everySecond, List.forall_mem_cons]
    exact ⟨.rule _, .rule _, by simp⟩
  have hsources : ∀ r ∈ exchangeSpecimen.rules, r.source = .value := by
    simp [exchangeSpecimen, isOne, Rule.of]
  have hmarked : ¬exchangeSpecimen.HasUnmarked := by
    simp [exchangeSpecimen, isOne, not_hasUnmarked_group, not_hasUnmarked_interleaved,
      not_hasUnmarked_rule, not_hasUnmarked_bare]
  obtain ⟨v, hwritten, hread⟩ := ofValue_toValue_iff htree fun r hr => .inl (hsources r hr)
  exact ⟨htree, hsources, v, hwritten, hread.mpr hmarked⟩

/-- An interleaved group with a single member, in one with two. -/
def unmarkedSpecimen : Node :=
  .interleaved {} [.interleaved { negated := true } [isOne "a" .null], .bare (.text "and"),
    isOne "b" .null]

/-- An empty interleaved group is read as a standard one, and a group with a single
member in an interleaved group is not read at all. -/
theorem ofValue_toValue_unmarked :
    IsTree (.interleaved {} []) ∧ unmarkedSpecimen.IsTree ∧
      (∀ r ∈ unmarkedSpecimen.rules, r.source = .value) ∧
      (toValue true (.interleaved {} []) >>= ofValue) = .ok (.group (.text "and") {} []) ∧
      (unmarkedSpecimen.toValue true >>= ofValue) =
        .error (.invalidTree (.notAMember 0 "RuleGroup")) := by
  refine ⟨.interleaved rfl (by simp [turnMembers, everySecond]), ?_, ?_, ?_, ?_⟩
  · refine .interleaved rfl ?_
    simp only [turnMembers, everySecond, List.forall_mem_cons]
    refine ⟨.interleaved rfl ?_, .rule _, by simp⟩
    simp only [turnMembers, everySecond, List.forall_mem_cons]
    exact ⟨.rule _, by simp⟩
  · simp [unmarkedSpecimen, isOne, Rule.of]
  · have hread : ofValue (.map (groupMap none {} [])) = .ok (.group (.text "and") {} []) := by
      rw [ofValue_groupMap_of_not_any rfl, childrenOfValues]
      rfl
    exact hread
  · -- the inner group has no combinator, so it is read as a standard one
    have hone : ∀ name, ofValue (.map (ruleEntries true (Rule.of name .eq (.int 1)))) =
        .ok (isOne name .null) := fun _ => ofValue_ruleEntries (.inl rfl)
    have hinner : ofValue (.map (groupMap none { negated := true }
        [.map (ruleEntries true (Rule.of "a" .eq (.int 1)))])) =
          .ok (.group (.text "and") { negated := true } [isOne "a" .null]) := by
      rw [ofValue_groupMap_of_not_any rfl, childrenOfValues_cons rfl, childrenOfValues, hone]
      rfl
    have houter : ofValue (.map (groupMap none {}
        [.map (groupMap none { negated := true }
            [.map (ruleEntries true (Rule.of "a" .eq (.int 1)))]),
          .text "and", .map (ruleEntries true (Rule.of "b" .eq (.int 1)))])) =
          .error (.invalidTree (.notAMember 0 "RuleGroup")) := by
      rw [ofValue_groupMap_of_any rfl, itemsOfValues_cons rfl, hinner, itemsOfValues_text,
        itemsOfValues_cons rfl, hone, itemsOfValues]
      rfl
    exact houter

end Node
end RuleTree
