import RuleTree.Proofs.OpenedGroups

/-! # Groups that are kept

A document opens its groups no deeper than its tree is nested, and the guard of the depth is
exact for it, if every group that is opened is kept (`Mongo.documentOpened_le_nesting`).  There
are three ways in which one may not be.  A group of the clause is a range
(`Clause.WritesRange`).  The root of the clause is a group around a negated one, and gives way to
it (`Clause.rootOf`).  Or a negated disjunction of several documents is folded into the only one
of them that says something (`Mongo.documentFolds`).

That goes by way of the clause: a document opens no more groups than its clause has
(`Mongo.documentOpened_le`), and a tree has all the groups of its clause
(`Clause.nesting_toMember`).
-/
namespace RuleTree

/-! ### How deep clauses are nested -/

namespace Clause

mutual
/-- How deep groups are nested in a clause. -/
def nesting : Clause → Nat
  | .rule _ | .constant _ => 0
  | .empty _ => 1
  | .group _ head tail => max (nesting head) (turnsNesting tail) + 1

/-- How deep groups are nested in the deepest member after the first. -/
def turnsNesting : List (Junction × Clause) → Nat
  | [] => 0
  | (_, c) :: rest => max (nesting c) (turnsNesting rest)
end

/-- How deep groups are nested in the deepest of some clauses. -/
def nestingAll : List Clause → Nat
  | [] => 0
  | c :: rest => max c.nesting (nestingAll rest)

theorem nestingAll_singleton (c : Clause) : nestingAll [c] = c.nesting := by
  rw [nestingAll, nestingAll, Nat.max_zero]

theorem nestingAll_append (cs ds : List Clause) :
    nestingAll (cs ++ ds) = max (nestingAll cs) (nestingAll ds) := by
  induction cs with
  | nil => rw [List.nil_append, nestingAll, Nat.zero_max]
  | cons c cs ih => rw [List.cons_append, nestingAll, nestingAll, ih, Nat.max_assoc]

theorem turnsNesting_map (junction : Junction) (cs : List Clause) :
    turnsNesting (cs.map fun c => (junction, c)) = nestingAll cs := by
  induction cs with
  | nil => rfl
  | cons c cs ih => rw [List.map_cons, turnsNesting, ih, nestingAll]

theorem nesting_join (junction : Junction) (negated : Bool) (cs : List Clause) :
    (join junction negated cs).nesting = nestingAll cs + 1 := by
  cases cs with
  | nil => rfl
  | cons c cs => rw [join, nesting, turnsNesting_map, nestingAll]

/-- A complement has the groups of its clause. -/
theorem nesting_of_negate {c d : Clause} (h : negate c = .ok d) : d.nesting = c.nesting := by
  cases c with
  | constant => cases h
  | rule | empty | group =>
    obtain rfl := Except.ok.inj h
    rfl

theorem nestingAll_of_mapM_negate {c? d? : Option Clause} (h : c?.mapM negate = .ok d?) :
    nestingAll d?.toList = nestingAll c?.toList := by
  cases c? with
  | none =>
    obtain rfl := Except.ok.inj h
    rfl
  | some c =>
    obtain ⟨d, hd, rfl⟩ := Result.map_eq_ok h
    simp only [Option.toList_some, nestingAll_singleton, nesting_of_negate hd]

variable (traits : SourceTraits) {plan : ParsePlan}

/-- The members of a clause. -/
def members : Clause → List Clause
  | .group _ head tail => head :: tail.map Prod.snd
  | _ => []

/-- The clause is a group that writes a range, or has one in it. -/
inductive WritesRange : Clause → Prop where
  | itself {negated : Bool} {head : Clause} {tail : List (Junction × Clause)} {r : Rule} :
      recovered? traits negated head tail = some r → WritesRange (.group negated head tail)
  | member {c m : Clause} : m ∈ c.members → WritesRange m → WritesRange c

/-- Members in a row are nested as deep as their clauses. -/
theorem nestingAll_toTurns {depth : Nat} {tail : List (Junction × Clause)}
    (ih : ∀ e ∈ tail, ∀ m, toMember traits plan depth e.2 = .ok m → m.nesting = e.2.nesting)
    {turns : List Node} (h : toTurns traits plan depth tail = .ok turns) :
    Node.nestingAll turns = turnsNesting tail := by
  induction tail generalizing turns with
  | nil =>
    obtain rfl := Except.ok.inj h
    rfl
  | cons e tail iht =>
    obtain ⟨he, htail⟩ := List.forall_mem_cons.mp ih
    obtain ⟨m, hm, h⟩ := Result.bind_eq_ok h
    obtain ⟨rest, hrest, h⟩ := Result.bind_eq_ok h
    obtain rfl := Except.ok.inj h
    rw [Node.nestingAll, Node.nestingAll, Node.nesting, Nat.zero_max, he m hm, iht htail hrest,
      turnsNesting]

/-- A group is nested one deeper than its members. -/
theorem nesting_of_members {depth : Nat} {negated : Bool} {flags : GroupFlags} {head : Clause}
    {tail : List (Junction × Clause)}
    (ih : ∀ c ∈ (group negated head tail).members, ∀ m,
      toMember traits plan depth c = .ok m → m.nesting = c.nesting) {g : Node}
    (h : (do
      plan.checkDepth depth
      let first ← toMember traits plan depth head
      return Node.interleaved flags (first :: (← toTurns traits plan depth tail))) =
        Except.ok g) : g.nesting = (group negated head tail).nesting := by
  obtain ⟨-, -, h⟩ := Result.bind_eq_ok h
  obtain ⟨first, hfirst, h⟩ := Result.bind_eq_ok h
  obtain ⟨turns, hturns, h⟩ := Result.bind_eq_ok h
  obtain rfl := Except.ok.inj h
  obtain ⟨ihead, itail⟩ := List.forall_mem_cons.mp ih
  have hmembers := nestingAll_toTurns traits
    (fun e he => itail e.2 (List.mem_map_of_mem he)) hturns
  rw [Node.nesting, Node.nestingAll, ihead first hfirst, hmembers, nesting]

/-- Without ranges every group of a clause is one of the tree. -/
theorem nesting_toMember (c : Clause) : ¬WritesRange traits c → ∀ {depth : Nat} {m : Node},
    toMember traits plan depth c = .ok m → m.nesting = c.nesting := by
  induction c using induct with
  | rule r =>
    intro _ depth m h
    obtain rfl := Except.ok.inj h
    rfl
  | constant _ =>
    intro _ depth m h
    cases h
  | empty negated =>
    intro _ depth m h
    obtain ⟨-, -, h⟩ := Result.bind_eq_ok h
    obtain rfl := Except.ok.inj h
    rfl
  | group negated head tail ihead itail =>
    intro hranges depth m h
    have hnone : recovered? traits negated head tail = none :=
      Option.eq_none_iff_forall_ne_some.mpr fun r hr => hranges (.itself hr)
    rw [toMember, hnone] at h
    have hmember {c : Clause} (hc : c ∈ (group negated head tail).members) :
        ¬WritesRange traits c := fun hrange => hranges (.member hc hrange)
    refine nesting_of_members traits (List.forall_mem_cons.mpr ⟨fun m => ?_, ?_⟩) h
    · exact ihead (hmember List.mem_cons_self)
    · refine List.forall_mem_map.mpr fun e he m => itail e he (hmember ?_)
      exact List.mem_cons_of_mem _ (List.mem_map_of_mem he)

/-- A root without ranges in it is nested at least as deep as its clause. -/
theorem nesting_le_of_toGroup {c : Clause} (hranges : ∀ m ∈ c.members, ¬WritesRange traits m)
    {g : Node} (h : toGroup traits plan c = .ok g) : c.nesting ≤ g.nesting := by
  cases c with
  | rule | constant => exact Nat.zero_le _
  | empty negated =>
    obtain ⟨-, -, h⟩ := Result.bind_eq_ok h
    obtain rfl := Except.ok.inj h
    exact Nat.le_refl 1
  | group negated head tail =>
    exact (nesting_of_members traits (fun c hc m => nesting_toMember traits c (hranges c hc)) h).ge

end Clause

/-! ### Negated disjunctions -/

namespace Mongo
open Clause Result

mutual
/-- Whether a negated disjunction of several documents stands somewhere among entries, of which
one alone says something: it is that one which is negated. -/
def entriesFold : List (String × Value) → Bool
  | [] => false
  | (key, v) :: rest =>
    (if key = "$and" || key = "$or" || key = "$nor" then logicalFolds key v
      else if key = "$not" then documentFolds v
      else false) || entriesFold rest

/-- Whether there is such a disjunction in a document. -/
def documentFolds : Value → Bool
  | .map entries => entriesFold entries
  | _ => false

/-- Whether a logical operator is one, or there is one in its documents. -/
def logicalFolds (key : String) : Value → Bool
  | .list items =>
    (key = "$nor" && items.length != 1 && items.countP documentSays == 1) || documentsFold items
  | _ => false

/-- Whether there is one in some documents. -/
def documentsFold : List Value → Bool
  | [] => false
  | v :: rest => documentFolds v || documentsFold rest
end

section
variable {plan : ParsePlan} {depth : Nat}

theorem opened_le_nesting_of_negateConditions {cs : List Clause} {c : Clause}
    (h : negateConditions plan depth cs = .ok c) :
    max (nestingAll cs) (if cs.length = 1 then 0 else 1) ≤ c.nesting := by
  match cs with
  | [d] =>
    have hnesting := nesting_of_negate h
    simp [nestingAll, hnesting]
  | [] | _ :: _ :: _ =>
    obtain ⟨-, -, h⟩ := Result.bind_eq_ok h
    obtain rfl := Except.ok.inj h
    rw [nesting_join, if_neg (by simp)]
    omega

mutual
theorem conditionsOpened_le (field : String) : ∀ (v : Value) {cs : List Clause},
    conditions plan depth field v = .ok cs → conditionsOpened field v ≤ nestingAll cs
  | .map entries, cs, h => by
    rw [conditions, objectConditions] at h
    rw [conditionsOpened]
    split at h
    case isTrue hany =>
      obtain ⟨others, hothers, h⟩ := Result.bind_eq_ok h
      obtain rfl := Except.ok.inj h
      rw [if_pos hany, nestingAll_append]
      exact (operatorsOpened_le field _ entries hothers).trans (Nat.le_max_right _ _)
    case isFalse hany =>
      rw [if_neg hany]
      exact Nat.zero_le _
  | .null, _, _ | .bool _, _, _ | .int _, _, _ | .float _, _, _ | .text _, _, _ | .list _, _, _ =>
    Nat.zero_le _

theorem operatorsOpened_le (field : String) (isRange : Bool) :
    ∀ (entries : List (String × Value)) {cs : List Clause},
      operators plan depth field isRange entries = .ok cs →
        operatorsOpened field entries ≤ nestingAll cs
  | [], _, _ => Nat.zero_le _
  | (key, v) :: rest, cs, h => by
    rw [operators] at h
    rw [operatorsOpened]
    by_cases hkey : key = "$not"
    · have hskip : ¬isSkipped isRange key = true := by simp [hkey, isSkipped_not]
      rw [if_neg hskip, if_pos hkey] at h
      obtain ⟨inner, hinner, h⟩ := Result.bind_eq_ok h
      obtain ⟨c, hc, h⟩ := Result.bind_eq_ok h
      obtain ⟨others, hothers, h⟩ := Result.bind_eq_ok h
      obtain rfl := Except.ok.inj h
      have hnegand := conditionsOpened_le field v (negand_eq_ok hinner)
      have hnegation := opened_le_nesting_of_negateConditions hc
      have hrest := operatorsOpened_le field isRange rest hothers
      rw [length_conditions (negand_eq_ok hinner)] at hnegation
      rw [if_pos hkey, nestingAll]
      omega
    · rw [if_neg hkey] at h ⊢
      rw [Nat.zero_max]
      split at h
      · exact operatorsOpened_le field isRange rest h
      · obtain ⟨r, -, h⟩ := Result.bind_eq_ok h
        obtain ⟨others, hothers, h⟩ := Result.bind_eq_ok h
        obtain rfl := Except.ok.inj h
        exact (operatorsOpened_le field isRange rest hothers).trans (Nat.le_max_right _ _)
end

theorem opened_le_nesting_of_conjunction {cs : List Clause} {c? : Option Clause}
    (h : conjunction plan depth cs = .ok c?) :
    max (nestingAll cs) (if cs.length ≤ 1 then 0 else 1) ≤ nestingAll c?.toList := by
  match cs with
  | [] | [_] =>
    obtain rfl := Except.ok.inj h
    simp
  | _ :: _ :: _ =>
    obtain ⟨-, -, h⟩ := Result.bind_eq_ok h
    obtain rfl := Except.ok.inj h
    rw [Option.toList_some, nestingAll_singleton, nesting_join, if_neg (by simp)]
    omega

/-- A negated disjunction is a group. -/
theorem le_nesting_of_nor {cs : List Clause} {c : Clause} (h : nor cs = .ok c) :
    max 1 (nestingAll cs) ≤ c.nesting := by
  unfold nor at h
  split at h
  · obtain rfl := Except.ok.inj h
    rw [nesting_join]
    omega
  · rename_i d hrule
    rw [nesting_of_negate h, nestingAll_singleton]
    cases d with
    | rule r => exact absurd rfl (hrule r)
    | constant => cases h
    | empty => simp [nesting]
    | group =>
      rw [nesting]
      omega
  · obtain rfl := Except.ok.inj h
    rw [nesting_join]
    omega

/-- It is one around its clauses unless there is one alone. -/
theorem nesting_of_nor {cs : List Clause} (hne : cs.length ≠ 1) {c : Clause} (h : nor cs = .ok c) :
    c.nesting = nestingAll cs + 1 := by
  unfold nor at h
  split at h
  · exact absurd rfl hne
  · exact absurd rfl hne
  · obtain rfl := Except.ok.inj h
    exact nesting_join _ _ _

/-- An item of a list is read as a negated document is. -/
theorem itemDocument_eq_ok {key : String} {v : Value} {c? : Option Clause}
    (h : itemDocument plan depth key v = .ok c?) : negatedDocument plan depth v = .ok c? := by
  cases v with
  | map entries => exact h
  | _ => cases h

theorem length_documents {key : String} {items : List Value} {cs : List Clause}
    (h : documents plan depth key items = .ok cs) : cs.length = items.countP documentSays := by
  induction items generalizing cs with
  | nil =>
    obtain rfl := Except.ok.inj h
    rfl
  | cons v items ih =>
    obtain ⟨c?, hc, h⟩ := Result.bind_eq_ok h
    obtain ⟨others, hothers, h⟩ := Result.bind_eq_ok h
    obtain rfl := Except.ok.inj h
    rw [List.length_append, length_toList, isSome_negatedDocument v (itemDocument_eq_ok hc),
      ih hothers, List.countP_cons, Nat.add_comm]
    cases documentSays v <;> rfl

end

section
variable {plan : ParsePlan}

mutual
theorem entriesOpened_le {depth : Nat} : ∀ (entries : List (String × Value)) {cs : List Clause},
    entryClauses plan depth entries = .ok cs → entriesFold entries = false →
      entriesOpened entries ≤ nestingAll cs
  | [], _, _, _ => Nat.zero_le _
  | (key, v) :: rest, cs, h, hfolds => by
    rw [entriesFold, Bool.or_eq_false_iff] at hfolds
    obtain ⟨hfold, hrestFolds⟩ := hfolds
    obtain ⟨here, others, hstates, hothers, rfl⟩ := exists_entryStates h
    rw [entriesOpened, nestingAll_append]
    have hrest := entriesOpened_le rest hothers hrestFolds
    refine Nat.max_le.mpr
      ⟨Nat.le_trans ?_ (Nat.le_max_left _ _), hrest.trans (Nat.le_max_right _ _)⟩
    cases hstates with
    | logical hkey hc =>
      rw [if_pos hkey] at hfold ⊢
      rw [nestingAll_singleton]
      exact logicalOpened_le key v hc hfold
    | negation hlogical hkey hinner hc =>
      rw [if_neg hlogical, if_pos hkey] at hfold ⊢
      rw [nestingAll_of_mapM_negate hc]
      exact documentOpened_le v hinner hfold
    | expression hlogical hnot hkey =>
      rw [if_neg hlogical, if_neg hnot, if_pos hkey]
      exact Nat.zero_le _
    | conditions hlogical hnot hexpr hcs =>
      rw [if_neg hlogical, if_neg hnot, if_neg hexpr]
      exact conditionsOpened_le key v hcs

theorem documentOpened_le {depth : Nat} : ∀ (v : Value) {c? : Option Clause},
    negatedDocument plan depth v = .ok c? → documentFolds v = false →
      documentOpened v ≤ nestingAll c?.toList
  | .map entries, c?, h, hfolds => by
    obtain ⟨cs, hcs, h⟩ := Result.bind_eq_ok h
    have hentries := entriesOpened_le entries hcs hfolds
    have hdocument := opened_le_nesting_of_conjunction h
    rw [length_entryClauses entries hcs] at hdocument
    rw [documentOpened]
    omega
  | .null, _, _, _ | .bool _, _, _, _ | .int _, _, _, _ | .float _, _, _, _ | .text _, _, _, _
  | .list _, _, _, _ => Nat.zero_le _

theorem logicalOpened_le {depth : Nat} (key : String) : ∀ (v : Value) {c : Clause},
    logical plan depth key v = .ok c → logicalFolds key v = false →
      logicalOpened key v ≤ c.nesting
  | .list items, c, h, hfolds => by
    rw [logicalFolds, Bool.or_eq_false_iff] at hfolds
    obtain ⟨hfold, hothers⟩ := hfolds
    obtain ⟨-, -, h⟩ := Result.bind_eq_ok h
    obtain ⟨cs, hcs, h⟩ := Result.bind_eq_ok h
    have hdocuments := documentsOpened_le key items hcs hothers
    rw [logicalOpened]
    split at h
    case isFalse hkey =>
      obtain rfl := Except.ok.inj h
      rw [nesting_join, if_neg (by simp [hkey])]
      omega
    case isTrue hkey =>
      split
      · have hle := le_nesting_of_nor h
        omega
      case isFalse hseveral =>
        have hitems : items.length ≠ 1 := by simpa [hkey] using hseveral
        have hne : cs.length ≠ 1 := by
          rw [length_documents hcs]
          simpa [hkey, hitems] using hfold
        rw [nesting_of_nor hne h]
        omega
  | .null, _, h, _ | .bool _, _, h, _ | .int _, _, h, _ | .float _, _, h, _ | .text _, _, h, _
  | .map _, _, h, _ => by cases h

theorem documentsOpened_le {depth : Nat} (key : String) :
    ∀ (items : List Value) {cs : List Clause}, documents plan depth key items = .ok cs →
      documentsFold items = false → documentsOpened items ≤ nestingAll cs
  | [], _, _, _ => Nat.zero_le _
  | v :: rest, cs, h, hfolds => by
    rw [documentsFold, Bool.or_eq_false_iff] at hfolds
    obtain ⟨c?, hc, h⟩ := Result.bind_eq_ok h
    obtain ⟨others, hothers, h⟩ := Result.bind_eq_ok h
    obtain rfl := Except.ok.inj h
    have hfirst := documentOpened_le v (itemDocument_eq_ok hc) hfolds.1
    have hrest := documentsOpened_le key rest hothers hfolds.2
    rw [documentsOpened, nestingAll_append]
    omega
end

/-- **Kept groups.**  A document opens its groups no deeper than its tree is nested, unless a
group of its clause is a range, the group around the root is dropped, or a negated disjunction of
several documents is folded into one of them. -/
theorem documentOpened_le_nesting {source : Value} {entries : List (String × Value)}
    (hdocument : Json.document "MongoDB" source = .ok (.map entries)) {root : Option Clause}
    (hread : clause? plan source = .ok root) {tree : Node}
    (htree : toTree traits plan.inTurns root = .ok tree)
    (hfolds : documentFolds (.map entries) = false)
    (hroot : ∀ c ∈ root, c.nesting ≤ (rootOf traits root).nesting)
    (hranges : ∀ m ∈ (rootOf traits root).members, ¬m.WritesRange traits) :
    documentOpened (.map entries) ≤ tree.nesting := by
  have hclause : negatedDocument plan 1 (.map entries) = .ok root := by
    rwa [clause?, hdocument] at hread
  have hopened := documentOpened_le (.map entries) hclause hfolds
  have hkept := nesting_le_of_toGroup traits hranges (toGroup_of_toTree traits htree)
  cases root with
  | none => exact hopened.trans (Nat.zero_le _)
  | some c =>
    rw [Option.toList_some, nestingAll_singleton] at hopened
    exact hopened.trans ((hroot c rfl).trans hkept)

end

end Mongo
end RuleTree
