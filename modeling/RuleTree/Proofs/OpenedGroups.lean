import RuleTree.Proofs.Documents
import RuleTree.Proofs.Nesting

/-! # Groups that documents open

The limit of the depth is looked at twice for a document: where it opens a group, and where what
it states becomes a tree.  When a group is opened nothing is known of what will become of it, and
some groups are not in the tree: two comparisons are recovered as a range, a root that holds
nothing but a negated group gives way to that group, and a negated disjunction of several documents
becomes the complement of the only one that says something.  Such a group is counted all the same.

`Mongo.documentOpened` is how deep a document opens groups.  It depends on how many clauses there
are (`Mongo.clauseCount`), since a single one is not put into a group.  Reading a document under a
limit is reading it without one, refused where it opens groups too deep (`Result.Guarded`, one
lemma for each step).  So a document needs a limit that keeps both its groups and those of its tree,
and the guard is exact for the tree if and only if the document opens its groups no deeper than
the tree is nested (`Query.parse_maxDepth_opened`).  What is written of a tree may open one more:
a range that is negated is written as a disjunction (`Query.parse_maxDepth_opened_range`).
-/
namespace RuleTree

/-! ### Steps with and without a limit -/

namespace Result
variable {α β : Type} {limit m n : Nat}

/-- The shallower of two depths decides alone only if it is the deeper one as well. -/
theorem forall_upTo_max_iff (hn : 1 ≤ n) (a : α) :
    (∀ limit, 1 ≤ limit → upTo limit (max m n) a = upTo limit n a) ↔ m ≤ n := by
  refine ⟨fun h => ?_, fun h limit _ => by rw [Nat.max_eq_right h]⟩
  by_contra hdeeper
  have hown := h n hn
  rw [upTo_of_le (Nat.le_refl n), upTo, if_neg (by omega)] at hown
  cases hown

/-- What a step gives without a limit is given under the limit as well, up to a depth. -/
def Guarded (limit depth : Nat) (free limited : Result α) : Prop :=
  ∀ a, free = .ok a → limited = upTo limit depth a

/-- A step that asks for no depth of its own. -/
theorem guarded_self (h : m ≤ limit) (x : Result α) : Guarded limit m x x :=
  fun a ha => ha.trans (upTo_of_le h a).symm

theorem guarded_error (e : Error) (y : Result α) : Guarded limit m (.error e) y := nofun

/-- Steps in a row go as deep as the deepest of them. -/
theorem Guarded.bind {depth : Nat} {x x' : Result α} {f f' : α → Result β}
    (h : Guarded limit (depth + m) x x')
    (hnext : ∀ a, x = .ok a → depth + m ≤ limit → Guarded limit (depth + n) (f a) (f' a)) :
    Guarded limit (depth + max m n) (x >>= f) (x' >>= f') := by
  intro b hb
  obtain ⟨a, ha, hfa⟩ := Result.bind_eq_ok hb
  rw [h a ha]
  refine upTo_bind (by omega) fun hm => ?_
  rw [hnext a ha hm b hfa]
  have hdeepest : depth + max m n ≤ limit ↔ depth + n ≤ limit := by omega
  simp only [upTo, hdeepest]

/-- A step that does not look at the depth goes as deep as what follows. -/
theorem guarded_after (x : Result α) {f f' : α → Result β}
    (h : ∀ a, Guarded limit m (f a) (f' a)) : Guarded limit m (x >>= f) (x >>= f') := by
  intro b hb
  obtain ⟨a, rfl, hfa⟩ := Result.bind_eq_ok hb
  exact h a b hfa

/-- Nor does a step that follows and does not look at the depth go deeper. -/
theorem Guarded.andThen {x x' : Result α} (h : Guarded limit m x x') (f : α → Result β) :
    Guarded limit m (x >>= f) (x' >>= f) := by
  intro b hb
  obtain ⟨a, ha, hfa⟩ := Result.bind_eq_ok hb
  rw [h a ha]
  exact upTo_bind (Nat.le_refl m) fun hm => hfa.trans (upTo_of_le hm b).symm

end Result

theorem ParsePlan.guarded_checkDepth (plan : ParsePlan) (limit depth : Nat) :
    Result.Guarded limit depth (plan.checkDepth depth) ((plan.limited limit).checkDepth depth) :=
  fun _ _ => checkDepth_limited plan limit depth

namespace Mongo
open Clause Result

/-! ### How many clauses there are -/

/-- How many conditions on a field a value states: the two bounds of a range are one. -/
def conditionCount (field : String) : Value → Nat
  | .map entries =>
    if entries.any fun e => isOperatorKey e.1 then
      (range? field entries).toList.length +
        entries.countP fun e => !isSkipped (range? field entries).isSome e.1
    else 1
  | _ => 1

/-- Whether an expression says something. -/
def expressionSays (v : Value) : Bool :=
  match expression v with
  | .ok (some _) => true
  | _ => false

mutual
/-- How many clauses the entries of a document state. -/
def clauseCount : List (String × Value) → Nat
  | [] => 0
  | (key, v) :: rest =>
    (if key = "$and" || key = "$or" || key = "$nor" then 1
      else if key = "$not" then (documentSays v).toNat
      else if key = "$expr" then (expressionSays v).toNat
      else conditionCount key v) + clauseCount rest

/-- Whether a document says something. -/
def documentSays : Value → Bool
  | .map entries => clauseCount entries != 0
  | _ => false
end

/-! ### How deep groups are opened -/

mutual
/-- How deep the conditions on a field open groups: a negation opens one unless it takes
exactly one condition. -/
def conditionsOpened (field : String) : Value → Nat
  | .map entries =>
    if entries.any fun e => isOperatorKey e.1 then operatorsOpened field entries else 0
  | _ => 0

/-- How deep the operators of a field open groups. -/
def operatorsOpened (field : String) : List (String × Value) → Nat
  | [] => 0
  | (key, v) :: rest =>
    max (if key = "$not" then
        max (conditionsOpened field v) (if conditionCount field v = 1 then 0 else 1)
      else 0) (operatorsOpened field rest)
end

mutual
/-- How deep the entries of a document open groups. -/
def entriesOpened : List (String × Value) → Nat
  | [] => 0
  | (key, v) :: rest =>
    max (if key = "$and" || key = "$or" || key = "$nor" then logicalOpened key v
      else if key = "$not" then documentOpened v
      else if key = "$expr" then 0
      else conditionsOpened key v) (entriesOpened rest)

/-- How deep a document opens groups: one for the document where it states several clauses, beside
those of its entries. -/
def documentOpened : Value → Nat
  | .map entries => max (entriesOpened entries) (if clauseCount entries ≤ 1 then 0 else 1)
  | _ => 0

/-- How deep a logical operator opens groups: one around those of its documents, but a negated
disjunction of one document takes the place of that document. -/
def logicalOpened (key : String) : Value → Nat
  | .list items =>
    max 1 ((if key = "$nor" && items.length == 1 then 0 else 1) + documentsOpened items)
  | _ => 0

/-- How deep the deepest of some documents opens groups. -/
def documentsOpened : List Value → Nat
  | [] => 0
  | v :: rest => max (documentOpened v) (documentsOpened rest)
end

/-! ### Conditions on fields -/

theorem isSkipped_not (isRange : Bool) : isSkipped isRange "$not" = false := by
  cases isRange <;> decide

section
variable {plan : ParsePlan} {depth : Nat} {field : String}

theorem length_operators {isRange : Bool} {entries : List (String × Value)} {cs : List Clause}
    (h : operators plan depth field isRange entries = .ok cs) :
    cs.length = entries.countP fun e => !isSkipped isRange e.1 := by
  induction entries generalizing cs with
  | nil =>
    obtain rfl := Except.ok.inj h
    rfl
  | cons e entries ih =>
    obtain ⟨key, v⟩ := e
    rw [operators] at h
    split at h
    case isTrue hskip => simpa [hskip] using ih h
    case isFalse hskip =>
      rw [List.countP_cons_of_pos (by simpa using hskip)]
      split at h
      · obtain ⟨inner, -, h⟩ := Result.bind_eq_ok h
        obtain ⟨c, -, h⟩ := Result.bind_eq_ok h
        obtain ⟨rest, hrest, h⟩ := Result.bind_eq_ok h
        obtain rfl := Except.ok.inj h
        rw [List.length_cons, ih hrest]
      · obtain ⟨r, -, h⟩ := Result.bind_eq_ok h
        obtain ⟨rest, hrest, h⟩ := Result.bind_eq_ok h
        obtain rfl := Except.ok.inj h
        rw [List.length_cons, ih hrest]

theorem length_conditions {v : Value} {cs : List Clause}
    (h : conditions plan depth field v = .ok cs) : cs.length = conditionCount field v := by
  cases v with
  | map entries =>
    rw [conditions, objectConditions] at h
    rw [conditionCount]
    split at h
    case isTrue hany =>
      obtain ⟨cs', hcs', h⟩ := Result.bind_eq_ok h
      obtain rfl := Except.ok.inj h
      rw [if_pos hany, List.length_append, length_operators hcs']
      cases range? field entries <;> rfl
    case isFalse hany =>
      obtain rfl := Except.ok.inj h
      rw [if_neg hany]
      rfl
  | _ =>
    obtain rfl := Except.ok.inj h
    rfl

/-- A negation takes the conditions that an object states. -/
theorem negand_eq_ok {v : Value} {cs : List Clause} (h : negand plan depth field v = .ok cs) :
    conditions plan depth field v = .ok cs := by
  cases v with
  | map entries => exact h
  | _ => cases h

/-! ### Fields under a limit -/

variable {limit : Nat} (hdepth : depth ≤ limit)
include hdepth

theorem guarded_negateConditions (cs : List Clause) :
    Guarded limit (depth + if cs.length = 1 then 0 else 1)
      (negateConditions plan (depth + 1) cs)
      (negateConditions (plan.limited limit) (depth + 1) cs) := by
  have hgroup : Guarded limit (depth + 1)
      (do plan.checkDepth (depth + 1); return join .and true cs)
      (do (plan.limited limit).checkDepth (depth + 1); return join .and true cs) :=
    (plan.guarded_checkDepth limit (depth + 1)).bind
      fun _ _ hroom => guarded_self hroom (.ok (join .and true cs))
  match cs with
  | [c] => exact guarded_self hdepth (negate c)
  | [] | _ :: _ :: _ => exact hgroup

omit hdepth in
theorem guarded_negand {field : String} {v : Value} {n : Nat}
    (h : Guarded limit n (conditions plan (depth + 1) field v)
      (conditions (plan.limited limit) (depth + 1) field v)) :
    Guarded limit n (negand plan (depth + 1) field v)
      (negand (plan.limited limit) (depth + 1) field v) := by
  cases v with
  | map entries => exact h
  | _ => exact guarded_error _ _

mutual
theorem guarded_conditions (field : String) : ∀ v : Value,
    Guarded limit (depth + conditionsOpened field v) (conditions plan (depth + 1) field v)
      (conditions (plan.limited limit) (depth + 1) field v)
  | .map entries => by
    have hoperators := guarded_operators field (range? field entries).isSome entries
    rw [conditions, conditions, conditionsOpened, objectConditions, objectConditions]
    split
    · exact hoperators.andThen _
    · exact guarded_self hdepth _
  | .null | .bool _ | .int _ | .float _ | .text _ | .list _ => guarded_self hdepth _

theorem guarded_operators (field : String) (isRange : Bool) : ∀ entries : List (String × Value),
    Guarded limit (depth + operatorsOpened field entries)
      (operators plan (depth + 1) field isRange entries)
      (operators (plan.limited limit) (depth + 1) field isRange entries)
  | [] => guarded_self hdepth _
  | (key, v) :: rest => by
    have hrest := guarded_operators field isRange rest
    have hnegand := guarded_negand (guarded_conditions field v)
    rw [operators, operators, operatorsOpened]
    by_cases hkey : key = "$not"
    · have hskip : ¬isSkipped isRange key = true := by simp [hkey, isSkipped_not]
      rw [if_neg hskip, if_neg hskip, if_pos hkey, if_pos hkey, if_pos hkey, Nat.max_assoc]
      refine hnegand.bind fun inner hinner _ => ?_
      rw [← length_conditions (negand_eq_ok hinner)]
      exact (guarded_negateConditions hdepth inner).bind fun c _ _ => hrest.andThen _
    · rw [if_neg hkey, if_neg hkey, if_neg hkey]
      split
      · rw [Nat.zero_max]
        exact hrest
      · exact (guarded_self hdepth _).bind fun r _ _ => hrest.andThen _
end

end

/-! ### Documents under a limit -/

section
variable {plan : ParsePlan} {depth : Nat}

theorem isSome_conjunction {cs : List Clause} {c? : Option Clause}
    (h : conjunction plan depth cs = .ok c?) : c?.isSome = (cs.length != 0) := by
  match cs with
  | [] | [_] =>
    obtain rfl := Except.ok.inj h
    rfl
  | _ :: _ :: _ =>
    obtain ⟨-, -, h⟩ := Result.bind_eq_ok h
    obtain rfl := Except.ok.inj h
    rfl

theorem isSome_mapM_negate {c? d? : Option Clause} (h : c?.mapM negate = .ok d?) :
    d?.isSome = c?.isSome := by
  cases c? with
  | none =>
    obtain rfl := Except.ok.inj h
    rfl
  | some c =>
    obtain ⟨d, -, rfl⟩ := Result.map_eq_ok h
    rfl

theorem length_toList (c? : Option Clause) : c?.toList.length = c?.isSome.toNat := by
  cases c? <;> rfl

/-- What an entry of a document states, by its key. -/
inductive EntryStates (plan : ParsePlan) (depth : Nat) (key : String) (v : Value) :
    List Clause → Prop where
  | logical {c : Clause} : (key = "$and" || key = "$or" || key = "$nor") = true →
      logical plan depth key v = .ok c → EntryStates plan depth key v [c]
  | negation {inner c? : Option Clause} :
      ¬(key = "$and" || key = "$or" || key = "$nor") = true → key = "$not" →
      negatedDocument plan depth v = .ok inner → inner.mapM negate = .ok c? →
      EntryStates plan depth key v c?.toList
  | expression {c? : Option Clause} :
      ¬(key = "$and" || key = "$or" || key = "$nor") = true → key ≠ "$not" → key = "$expr" →
      expression v = .ok c? → EntryStates plan depth key v c?.toList
  | conditions {cs : List Clause} :
      ¬(key = "$and" || key = "$or" || key = "$nor") = true → key ≠ "$not" → key ≠ "$expr" →
      conditions plan depth key v = .ok cs → EntryStates plan depth key v cs

/-- The entries of a document state what the first one does and what the others do. -/
theorem exists_entryStates {key : String} {v : Value} {rest : List (String × Value)}
    {cs : List Clause} (h : entryClauses plan depth ((key, v) :: rest) = .ok cs) :
    ∃ here others, EntryStates plan depth key v here ∧
      entryClauses plan depth rest = .ok others ∧ cs = here ++ others := by
  have happend {here : List Clause} (hhere : EntryStates plan depth key v here)
      (h : (do return here ++ (← entryClauses plan depth rest)) = Except.ok cs) :
      ∃ here others, EntryStates plan depth key v here ∧
        entryClauses plan depth rest = .ok others ∧ cs = here ++ others := by
    obtain ⟨others, hothers, h⟩ := Result.bind_eq_ok h
    exact ⟨here, others, hhere, hothers, (Except.ok.inj h).symm⟩
  rw [entryClauses] at h
  by_cases hlogical : (key = "$and" || key = "$or" || key = "$nor") = true
  · rw [if_pos hlogical] at h
    obtain ⟨here, hhere, h⟩ := Result.bind_eq_ok h
    obtain ⟨c, hc, rfl⟩ := Result.map_eq_ok hhere
    exact happend (.logical hlogical hc) h
  rw [if_neg hlogical] at h
  by_cases hnot : key = "$not"
  · rw [if_pos hnot] at h
    obtain ⟨inner, hinner, h⟩ := Result.bind_eq_ok h
    obtain ⟨c?, hc, h⟩ := Result.bind_eq_ok h
    exact happend (.negation hlogical hnot hinner hc) h
  rw [if_neg hnot] at h
  by_cases hexpr : key = "$expr"
  · rw [if_pos hexpr] at h
    obtain ⟨here, hhere, h⟩ := Result.bind_eq_ok h
    obtain ⟨c?, hc, rfl⟩ := Result.map_eq_ok hhere
    exact happend (.expression hlogical hnot hexpr hc) h
  rw [if_neg hexpr] at h
  split at h
  · cases h
  · obtain ⟨here, hhere, h⟩ := Result.bind_eq_ok h
    exact happend (.conditions hlogical hnot hexpr hhere) h

mutual
theorem length_entryClauses : ∀ (entries : List (String × Value)) {cs : List Clause},
    entryClauses plan depth entries = .ok cs → cs.length = clauseCount entries
  | [], cs, h => by
    obtain rfl := Except.ok.inj h
    rfl
  | (key, v) :: rest, cs, h => by
    obtain ⟨here, others, hstates, hothers, rfl⟩ := exists_entryStates h
    rw [List.length_append, length_entryClauses rest hothers, clauseCount]
    congr 1
    cases hstates with
    | logical hkey => rw [if_pos hkey, List.length_singleton]
    | negation hlogical hkey hinner hc =>
      rw [if_neg hlogical, if_pos hkey, length_toList, isSome_mapM_negate hc,
        isSome_negatedDocument v hinner]
    | expression hlogical hnot hkey hc =>
      rw [if_neg hlogical, if_neg hnot, if_pos hkey, length_toList, expressionSays, hc]
      rename_i c?
      cases c? <;> rfl
    | conditions hlogical hnot hexpr hcs =>
      rw [if_neg hlogical, if_neg hnot, if_neg hexpr, length_conditions hcs]

theorem isSome_negatedDocument : ∀ (v : Value) {c? : Option Clause},
    negatedDocument plan depth v = .ok c? → c?.isSome = documentSays v
  | .map entries, c?, h => by
    obtain ⟨cs, hcs, h⟩ := Result.bind_eq_ok h
    rw [documentSays, isSome_conjunction h, length_entryClauses entries hcs]
  | .null, _, h | .bool _, _, h | .int _, _, h | .float _, _, h | .text _, _, h
  | .list _, _, h => by
    cases h
end

variable {limit : Nat} (hdepth : depth ≤ limit)
include hdepth

theorem guarded_conjunction (cs : List Clause) :
    Guarded limit (depth + if cs.length ≤ 1 then 0 else 1) (conjunction plan (depth + 1) cs)
      (conjunction (plan.limited limit) (depth + 1) cs) := by
  match cs with
  | [] | [_] => exact guarded_self hdepth _
  | c :: d :: rest =>
    exact (plan.guarded_checkDepth limit (depth + 1)).bind
      fun _ _ hroom => guarded_self hroom (.ok (some (join .and false (c :: d :: rest))))

/-- A document opens a group for itself only if it states several clauses. -/
theorem guarded_document {entries : List (String × Value)}
    (h : Guarded limit (depth + entriesOpened entries) (entryClauses plan (depth + 1) entries)
      (entryClauses (plan.limited limit) (depth + 1) entries)) :
    Guarded limit (depth + documentOpened (.map entries))
      (entryClauses plan (depth + 1) entries >>= conjunction plan (depth + 1))
      (entryClauses (plan.limited limit) (depth + 1) entries >>=
        conjunction (plan.limited limit) (depth + 1)) := by
  rw [documentOpened]
  refine h.bind fun cs hcs _ => ?_
  rw [← length_entryClauses entries hcs]
  exact guarded_conjunction hdepth cs

end

section
variable {plan : ParsePlan} {limit : Nat}

mutual
theorem guarded_entryClauses {depth : Nat} (hdepth : depth ≤ limit) :
    ∀ entries : List (String × Value),
      Guarded limit (depth + entriesOpened entries) (entryClauses plan (depth + 1) entries)
        (entryClauses (plan.limited limit) (depth + 1) entries)
  | [] => guarded_self hdepth _
  | (key, v) :: rest => by
    have hrest := guarded_entryClauses hdepth rest
    rw [entryClauses, entryClauses, entriesOpened]
    by_cases hlogical : (key = "$and" || key = "$or" || key = "$nor") = true
    · rw [if_pos hlogical, if_pos hlogical, if_pos hlogical]
      exact ((guarded_logical hdepth key v).andThen _).bind fun _ _ _ => hrest.andThen _
    rw [if_neg hlogical, if_neg hlogical, if_neg hlogical]
    by_cases hnot : key = "$not"
    · rw [if_pos hnot, if_pos hnot, if_pos hnot]
      exact (guarded_negatedDocument hdepth v).bind fun inner _ _ =>
        guarded_after (inner.mapM negate) fun _ => hrest.andThen _
    rw [if_neg hnot, if_neg hnot, if_neg hnot]
    by_cases hexpr : key = "$expr"
    · rw [if_pos hexpr, if_pos hexpr, if_pos hexpr]
      rw [Nat.zero_max]
      exact guarded_after _ fun _ => hrest.andThen _
    rw [if_neg hexpr, if_neg hexpr, if_neg hexpr]
    split
    · exact guarded_error _ _
    · exact (guarded_conditions hdepth key v).bind fun _ _ _ => hrest.andThen _

theorem guarded_negatedDocument {depth : Nat} (hdepth : depth ≤ limit) : ∀ v : Value,
    Guarded limit (depth + documentOpened v) (negatedDocument plan (depth + 1) v)
      (negatedDocument (plan.limited limit) (depth + 1) v)
  | .map entries => guarded_document hdepth (guarded_entryClauses hdepth entries)
  | .null | .bool _ | .int _ | .float _ | .text _ | .list _ => guarded_error _ _

theorem guarded_logical {depth : Nat} (hdepth : depth ≤ limit) (key : String) : ∀ v : Value,
    Guarded limit (depth + logicalOpened key v) (logical plan (depth + 1) key v)
      (logical (plan.limited limit) (depth + 1) key v)
  | .list items => by
    rw [logical, logical, logicalOpened]
    refine (plan.guarded_checkDepth limit (depth + 1)).bind fun _ _ hroom => ?_
    refine Guarded.andThen ?_ _
    rw [← Nat.add_assoc]
    split
    · exact guarded_documents hdepth key items
    · exact guarded_documents hroom key items
  | .null | .bool _ | .int _ | .float _ | .text _ | .map _ => guarded_error _ _

theorem guarded_documents {depth : Nat} (hdepth : depth ≤ limit) (key : String) :
    ∀ items : List Value,
      Guarded limit (depth + documentsOpened items) (documents plan (depth + 1) key items)
        (documents (plan.limited limit) (depth + 1) key items)
  | [] => guarded_self hdepth _
  | v :: rest => by
    have hrest := guarded_documents hdepth key rest
    rw [documents, documents, documentsOpened]
    exact (guarded_itemDocument hdepth key v).bind fun _ _ _ => hrest.andThen _

theorem guarded_itemDocument {depth : Nat} (hdepth : depth ≤ limit) (key : String) :
    ∀ v : Value,
      Guarded limit (depth + documentOpened v) (itemDocument plan (depth + 1) key v)
        (itemDocument (plan.limited limit) (depth + 1) key v)
  | .map entries => guarded_document hdepth (guarded_entryClauses hdepth entries)
  | .null | .bool _ | .int _ | .float _ | .text _ | .list _ => guarded_error _ _
end

/-- A query is refused where it opens groups too deep. -/
theorem guarded_clause? {source : Value} {entries : List (String × Value)}
    (hdocument : Json.document "MongoDB" source = .ok (.map entries)) :
    Guarded limit (documentOpened (.map entries)) (clause? plan source)
      (clause? (plan.limited limit) source) := by
  rw [clause?, clause?, hdocument, ← Nat.zero_add (documentOpened _)]
  exact guarded_document (Nat.zero_le limit) (guarded_entryClauses (Nat.zero_le limit) entries)

theorem exists_document_of_clause? {source : Value} {root : Option Clause}
    (h : clause? plan source = .ok root) :
    ∃ entries, Json.document "MongoDB" source = .ok (.map entries) := by
  obtain ⟨document, hdocument, h⟩ := Result.bind_eq_ok h
  cases document with
  | map entries => exact ⟨entries, hdocument⟩
  | _ => cases h

end

end Mongo

/-! ### Trees -/

namespace Clause
variable (traits : SourceTraits) {plan : ParsePlan}

/-- Where combinators stand between the members a tree is the group of its root. -/
theorem toGroup_of_toTree {root : Option Clause} {tree : Node}
    (h : toTree traits plan.inTurns root = .ok tree) :
    toGroup traits plan.inTurns (rootOf traits root) = .ok tree := by
  rw [toTree_eq] at h
  obtain ⟨group, hgroup, h⟩ := Result.bind_eq_ok h
  obtain ⟨shape, hshape, h⟩ := Result.bind_eq_ok h
  obtain rfl := Except.ok.inj hshape
  rwa [← eq_of_checked h]

end Clause

/-- A document that has a tree is read as a group in which combinators stand between the
members, and under a limit as well where that keeps both the groups that it opens and those of
the tree. -/
theorem Mongo.read_limited {plan : ParsePlan} (hplan : plan.CountsDepth) {source : Value} {t : Node}
    (h : read plan source = .ok t) :
    ∃ entries tree, Json.document "MongoDB" source = .ok (.map entries) ∧
      read plan.inTurns source = .ok tree ∧ 1 ≤ tree.nesting ∧
      ∀ limit, read (plan.inTurns.limited limit) source =
        Result.upTo limit (max (documentOpened (.map entries)) tree.nesting) tree := by
  obtain ⟨root, hroot, htree⟩ := Result.bind_eq_ok h
  obtain ⟨entries, hdocument⟩ := exists_document_of_clause? hroot
  have hread := (reads_clause? hplan.within source (.inl rfl) nofun).gives root hroot
  obtain ⟨tree, hfree, hlimited⟩ := Clause.toTree_limited traits hplan hread htree
  -- a reader asks the plan for its limit only
  have hdepth : plan.inTurns.maxDepth = plan.maxDepth := rfl
  have hagrees := clause?_congr hdepth source
  rw [← hagrees] at hroot
  refine ⟨entries, tree, hdocument, ?_, ?_, fun limit => ?_⟩
  · rw [read, hroot]
    exact hfree
  · have hturns : plan.inTurns.CountsDepth := hplan
    have hgroup := Clause.IsRead.rootOf traits hread
    obtain ⟨⟨flags, items, rfl⟩, -⟩ := (hgroup.reads_toGroup traits hturns.within).gives tree
      (Clause.toGroup_of_toTree traits hfree)
    rw [Node.nesting]
    omega
  · rw [read, guarded_clause? hdocument root hroot]
    refine Result.upTo_bind (Nat.le_max_left _ _) fun hopened => ?_
    have hdeepest : max (documentOpened (.map entries)) tree.nesting ≤ limit ↔
        tree.nesting ≤ limit := by omega
    simp only [hlimited limit, Result.upTo, hdeepest]

namespace Query
open Mongo

/-- Parses with combinators between the members and with a limit of the depth. -/
def parseWithin (source : Source) (dialect : Value) (input : OptionsInput ParseOptions)
    (overrides : List (String × OptionValue)) (limit : Nat) : Result Node :=
  parse source dialect input (overrides ++ [("independent_combinators", .plain (.bool true)),
    ("max_depth", .plain (.int limit))])

/-- Only a value is read as a document. -/
theorem exists_value_of_readSource_mongodb {entry : String × Reader} (hentry : entry ∈ readers)
    (hname : entry.1 = "mongodb") {source : Source} {plan : ParsePlan} {t : Node}
    (h : readSource entry source plan = .ok t) :
    ∃ v, source = .value v ∧ ∀ plan, readSource entry source plan = Mongo.read plan v := by
  obtain rfl : entry = ("mongodb", Mongo.read) := by
    simp only [readers, List.mem_cons, List.not_mem_nil, or_false] at hentry
    rcases hentry with rfl | rfl | rfl | rfl | rfl
    case inr.inr.inr.inl => rfl
    all_goals exact absurd hname (by decide)
  cases source with
  | value v => exact ⟨v, rfl, fun _ => rfl⟩
  | filter | foreign => cases h

/-- **Depth of documents.**  A document that has a tree, with whatever options, has one in which
combinators stand between the members.  It has the same one with every limit of the depth that
keeps both the groups that it opens and those of that tree, and is refused with every lower one.
So the nesting of the tree alone decides if and only if the document opens no group deeper. -/
theorem parse_maxDepth_opened {source : Source} {dialect : Value} {entry : String × Reader}
    (hreader : reader dialect = .ok entry) (hname : entry.1 = "mongodb")
    {input : OptionsInput ParseOptions} {overrides : List (String × OptionValue)} {t : Node}
    (hparse : parse source dialect input overrides = .ok t) :
    ∃ v entries tree, source = .value v ∧ Json.document "MongoDB" v = .ok (.map entries) ∧
      parse source dialect input
        (overrides ++ [("independent_combinators", .plain (.bool true))]) = .ok tree ∧
      (∀ limit, 1 ≤ limit → parseWithin source dialect input overrides limit =
        if max (documentOpened (.map entries)) tree.nesting ≤ limit then .ok tree
        else (ParseFault.tooDeep (.int limit)).fail) ∧
      ((∀ limit, 1 ≤ limit → parseWithin source dialect input overrides limit =
        if tree.nesting ≤ limit then .ok tree else (ParseFault.tooDeep (.int limit)).fail) ↔
          documentOpened (.map entries) ≤ tree.nesting) := by
  obtain ⟨_, _, hrest⟩ := Result.bind_eq_ok hparse
  obtain ⟨o, hbuild, hrest⟩ := Result.bind_eq_ok hrest
  obtain ⟨plan, hplan, -⟩ := Result.bind_eq_ok hrest
  have hturns := ParseOptions.resolve_inTurns hplan
  have hagain {more : List (String × OptionValue)} {o' : ParseOptions} {plan' : ParsePlan}
      (hmore : o.merge more = .ok o') (hplan' : o'.resolve = .ok plan') :
      parse source dialect input (overrides ++ more) = readSource entry source plan' :=
    parse_eq_readSource hreader ((ParseOptions.build_append hbuild more).trans hmore) hplan'
  rw [parse_eq_readSource hreader hbuild hplan] at hparse
  obtain ⟨v, rfl, hread⟩ := exists_value_of_readSource_mongodb (mem_readers hreader) hname hparse
  rw [hread] at hparse
  obtain ⟨entries, tree, hdocument, hfree, hnesting, hlimited⟩ :=
    read_limited (ParseOptions.countsDepth_of_resolve hplan) hparse
  have hwithin (limit : Nat) (hlimit : 1 ≤ limit) :
      parseWithin (.value v) dialect input overrides limit =
        Result.upTo limit (max (documentOpened (.map entries)) tree.nesting) tree := by
    rw [parseWithin, hagain rfl (ParseOptions.resolve_limited hturns hlimit), hread]
    exact hlimited limit
  refine ⟨v, entries, tree, rfl, hdocument, ?_, hwithin, ?_⟩
  · rw [hagain rfl hturns, hread]
    exact hfree
  · rw [← Result.forall_upTo_max_iff hnesting tree]
    refine forall_congr' fun limit => imp_congr_right fun hlimit => ?_
    rw [hwithin limit hlimit]
    rfl

/-- A negated group in a disjunction, which it negates in its place. -/
def negatedSpecimen : List (String × Value) :=
  [("$or", .list [.map [("a", .int 1)], .map [("$nor", .list [.map [("b", .int 1),
    ("c", .map [("$gte", .int 1), ("$lte", .int 2)])]])]])]

/-- A limit of two groups is kept, and one of a single group is not. -/
theorem parse_maxDepth_opened_specimen :
    documentOpened (.map negatedSpecimen) = 2 ∧ ∃ tree : Node, tree.nesting = 2 ∧
      parseWithin (.value (.map negatedSpecimen)) (.text "mongodb") .defaults [] 2 = .ok tree ∧
      parseWithin (.value (.map negatedSpecimen)) (.text "mongodb") .defaults [] 1 =
        (ParseFault.tooDeep (.int 1)).fail := by
  have hreader : reader (.text "mongodb") = .ok ("mongodb", Mongo.read) := rfl
  have hparse : parse (.value (.map negatedSpecimen)) (.text "mongodb") .defaults [] = .ok _ := rfl
  obtain ⟨_, _, tree, hvalue, hdocument, hfree, hlimited, -⟩ :=
    parse_maxDepth_opened hreader rfl hparse
  obtain rfl := Source.value.inj hvalue
  obtain rfl := Value.map.inj (Except.ok.inj hdocument)
  have hturns : parse (.value (.map negatedSpecimen)) (.text "mongodb") .defaults
      [("independent_combinators", .plain (.bool true))] = .ok _ := rfl
  obtain rfl := Except.ok.inj (hturns.symm.trans hfree)
  exact ⟨rfl, _, rfl, (hlimited 2 (by decide)).trans rfl, (hlimited 1 (by decide)).trans rfl⟩

/-- A group of one rule, that `a` is not between two numbers. -/
def rangeSpecimen : Node :=
  .group (.text "and") {} [.rule (Rule.of "a" .notBetween (.list [.int 1, .int 2]))]

/-- What is written of it: the rule is a disjunction of two conditions. -/
def rangeDocument : Value :=
  .map [("$and", .list [.map [("$or", .list [.map [("a", .map [("$lt", .int 1)])],
    .map [("a", .map [("$gt", .int 2)])]])]])]

/-- The tree is one group, and so is the one that its document is read as; but the document is
refused under a limit of one group, since it opens a second one for the rule. -/
theorem parse_maxDepth_opened_range :
    rangeSpecimen.nesting = 1 ∧
    (do format (← FormatOptions.build (.name "mongodb") []) rangeSpecimen) =
      .ok (.value rangeDocument) ∧
    ∃ tree : Node, tree.nesting = 1 ∧
      parse (.value rangeDocument) (.text "mongodb") .defaults
        [("independent_combinators", .plain (.bool true))] = .ok tree ∧
      parseWithin (.value rangeDocument) (.text "mongodb") .defaults [] 1 =
        (ParseFault.tooDeep (.int 1)).fail :=
  ⟨rfl, rfl, _, rfl, rfl, rfl⟩

end Query
end RuleTree
