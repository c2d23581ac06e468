import RuleTree.Proofs.Policies
import RuleTree.Proofs.Readers
import RuleTree.Proofs.StoredItems

/-! # Configured fields

Where fields are configured, a tree that is read is checked for the names in it once it is
built.  The check is exact on the tree (`Clause.checkFields_or`): the tree passes if every name
that is looked at is configured, and is refused for one that is not otherwise.  But the names
of other fields are looked at as they are stored, and storing several values in one text, or
reading one text as several values, may change them.  A source in which no name of another
field is of that kind (`Rule.KeepsNames`) is accepted with configured fields exactly if they
have every field that it names, and has the same tree then (`Query.parse_withFields`).

The plan of a reader matters for the tree in three places only: for the depth, where the
clause is made, for the rules, as they are stored, and for the check.  So the trees of one
source under several plans are made of the same rules (`Clause.toGroup_eq_map`).
-/
namespace RuleTree

/-! ### Rules before they are stored -/

namespace Node

mutual
/-- A tree with its rules replaced one by one. -/
def mapRules (f : Rule → Rule) : Node → Node
  | .rule r => .rule (f r)
  | .group combinator flags children => .group combinator flags (mapRulesAll f children)
  | .interleaved flags items => .interleaved flags (mapRulesAll f items)
  | .bare v => .bare v

/-- Trees with their rules replaced. -/
def mapRulesAll (f : Rule → Rule) : List Node → List Node
  | [] => []
  | node :: rest => mapRules f node :: mapRulesAll f rest
end

theorem mapRulesAll_eq_map (f : Rule → Rule) (nodes : List Node) :
    mapRulesAll f nodes = nodes.map (mapRules f) := by
  induction nodes with
  | nil => rfl
  | cons node nodes ih => rw [mapRulesAll, ih, List.map_cons]

@[simp] theorem mapRules_interleaved (f : Rule → Rule) (flags : GroupFlags) (items : List Node) :
    mapRules f (.interleaved flags items) = .interleaved flags (items.map (mapRules f)) := by
  rw [mapRules, mapRulesAll_eq_map]

theorem rules_mapRules (f : Rule → Rule) (t : Node) : (t.mapRules f).rules = t.rules.map f := by
  have hall {nodes : List Node} (h : ∀ node ∈ nodes, (node.mapRules f).rules = node.rules.map f) :
      (nodes.map (mapRules f)).flatMap rules = (nodes.flatMap rules).map f := by
    rw [List.flatMap_map, List.map_flatMap]
    exact List.flatMap_congr h
  induction t using induct with
  | rule r => rw [mapRules, rules_rule, rules_rule, List.map_singleton]
  | bare v => rw [mapRules, rules_bare, List.map_nil]
  | group combinator flags children ih =>
    rw [mapRules, mapRulesAll_eq_map, rules_group, rules_group, hall ih]
  | interleaved flags items ih =>
    rw [mapRules_interleaved, rules_interleaved, rules_interleaved, hall ih]

end Node

/-- Reading of rules as they stand in the source, to the same depth. -/
def ParsePlan.verbatim (plan : ParsePlan) : ParsePlan :=
  { listsAsArrays := true, maxDepth := plan.maxDepth }

namespace Clause
variable (traits : SourceTraits) (plan : ParsePlan)

theorem finishRule_verbatim (r : Rule) : finishRule plan.verbatim r = r := finishRule_arrays r

theorem checkDepth_verbatim : plan.verbatim.checkDepth = plan.checkDepth := rfl

theorem toTurns_eq_map {depth : Nat} {tail : List (Junction × Clause)}
    (ih : ∀ e ∈ tail, toMember traits plan depth e.2 =
      (toMember traits plan.verbatim depth e.2).map (Node.mapRules (finishRule plan))) :
    toTurns traits plan depth tail =
      (toTurns traits plan.verbatim depth tail).map
        (List.map (Node.mapRules (finishRule plan))) := by
  induction tail with
  | nil => rfl
  | cons e tail iht =>
    obtain ⟨he, htail⟩ := List.forall_mem_cons.mp ih
    rw [toTurns, toTurns, he, iht htail]
    cases toMember traits plan.verbatim depth e.2 with
    | error _ => rfl
    | ok m =>
      cases toTurns traits plan.verbatim depth tail with
      | error _ => rfl
      | ok turns => rfl

/-- Members are built first, and their rules are stored afterwards. -/
theorem toMember_eq_map (depth : Nat) (c : Clause) : toMember traits plan depth c =
    (toMember traits plan.verbatim depth c).map (Node.mapRules (finishRule plan)) := by
  induction c using induct generalizing depth with
  | rule r =>
    rw [toMember, toMember, finish_none, finish_none, finishRule_verbatim]
    rfl
  | constant _ => rfl
  | empty negated =>
    rw [toMember, toMember, checkDepth_verbatim]
    cases plan.checkDepth (depth + 1) <;> rfl
  | group negated head tail ihead itail =>
    rw [toMember, toMember, checkDepth_verbatim]
    cases recovered? traits negated head tail with
    | some r =>
      dsimp only
      rw [finish_none, finish_none, finishRule_verbatim]
      rfl
    | none =>
      dsimp only
      rw [ihead, toTurns_eq_map traits plan fun e he => itail e he (depth + 1)]
      cases plan.checkDepth (depth + 1) with
      | error _ => rfl
      | ok _ =>
        cases toMember traits plan.verbatim (depth + 1) head with
        | error _ => rfl
        | ok first =>
          cases toTurns traits plan.verbatim (depth + 1) tail with
          | error _ => rfl
          | ok turns =>
            exact congrArg Except.ok (Node.mapRules_interleaved _ _ (first :: turns)).symm

theorem toGroup_eq_map (c : Clause) : toGroup traits plan c =
    (toGroup traits plan.verbatim c).map (Node.mapRules (finishRule plan)) := by
  have hmember (c : Clause) := toMember_eq_map traits plan 1 c
  cases c with
  | group negated head tail =>
    rw [toGroup, toGroup, checkDepth_verbatim, hmember,
      toTurns_eq_map traits plan fun e _ => hmember e.2]
    cases plan.checkDepth 1 with
    | error _ => rfl
    | ok _ =>
      cases toMember traits plan.verbatim 1 head with
      | error _ => rfl
      | ok first =>
        cases toTurns traits plan.verbatim 1 tail with
        | error _ => rfl
        | ok turns => exact congrArg Except.ok (Node.mapRules_interleaved _ _ (first :: turns)).symm
  | empty negated =>
    rw [toGroup, toGroup, checkDepth_verbatim]
    cases plan.checkDepth 1 <;> rfl
  | constant comparison =>
    unfold toGroup
    dsimp only
    rw [checkDepth_verbatim]
    cases plan.checkDepth 1 <;> rfl
  | rule r =>
    unfold toGroup
    dsimp only
    rw [checkDepth_verbatim, hmember]
    cases plan.checkDepth 1 with
    | error _ => rfl
    | ok _ => exact congrArg Except.ok (Node.mapRules_interleaved _ _ [_]).symm

end Clause

/-! ### The check of fields -/

/-- What goes through a list has gone through all of it, or stops at an item that fails. -/
theorem Result.forM_or {α : Type} (f : α → Result PUnit) (as : List α) :
    (as.forM f = .ok ⟨⟩ ∧ ∀ a ∈ as, f a = .ok ⟨⟩) ∨
      ∃ a ∈ as, ∃ e, f a = .error e ∧ as.forM f = .error e := by
  induction as with
  | nil => exact .inl ⟨rfl, by simp⟩
  | cons a as ih =>
    cases ha : f a with
    | error e =>
      refine .inr ⟨a, List.mem_cons_self, e, ha, ?_⟩
      show (f a >>= fun _ => as.forM f) = _
      rw [ha]
      rfl
    | ok _ =>
      have hcons : (a :: as).forM f = as.forM f := by
        show (f a >>= fun _ => as.forM f) = _
        rw [ha]
        rfl
      rw [hcons]
      rcases ih with ⟨hrest, hall⟩ | ⟨b, hb, e, hfail, hrest⟩
      · exact .inl ⟨hrest, List.forall_mem_cons.mpr ⟨ha, hall⟩⟩
      · exact .inr ⟨b, List.mem_cons_of_mem _ hb, e, hfail, hrest⟩

/-- Every rule of a tree is walked. -/
theorem Node.exists_mem_walkFrom {t : Node} {r : Rule} (h : r ∈ t.rules) (path : Path) :
    ∃ q, (q, .rule r) ∈ t.walkFrom path := by
  have hmembers {members : List Node}
      (ih : ∀ node ∈ members, r ∈ node.rules → ∀ path, ∃ q, (q, .rule r) ∈ walkFrom path node)
      (h : r ∈ members.flatMap rules) (path : Path) :
      ∃ q, (q, .rule r) ∈ walkMembers path 0 members := by
    obtain ⟨node, hnode, hr⟩ := List.mem_flatMap.mp h
    obtain ⟨i, hi⟩ := List.mem_iff_getElem?.mp hnode
    obtain ⟨q, hq⟩ := ih node hnode hr (path ++ [0 + i])
    refine ⟨q, mem_walkMembers_iff.mpr ⟨i, node, hi, ?_, hq⟩⟩
    cases node with
    | bare v =>
      rw [rules_bare] at hr
      cases hr
    | _ => rfl
  induction t using induct generalizing path with
  | rule s =>
    rw [rules_rule, List.mem_singleton] at h
    exact ⟨path, by rw [h, walkFrom_eq]; exact List.mem_cons_self⟩
  | bare v =>
    rw [rules_bare] at h
    cases h
  | group combinator flags children ih =>
    rw [rules_group] at h
    obtain ⟨q, hq⟩ := hmembers (fun node hnode hr path => ih node hnode hr path) h path
    exact ⟨q, by rw [walkFrom]; exact List.mem_cons_of_mem _ hq⟩
  | interleaved flags items ih =>
    rw [rules_interleaved] at h
    obtain ⟨q, hq⟩ := hmembers (fun node hnode hr path => ih node hnode hr path) h path
    exact ⟨q, by rw [walkFrom]; exact List.mem_cons_of_mem _ hq⟩

/-- A field of the name is configured. -/
def FieldTable.Has (table : FieldTable) (name : Value) : Prop :=
  ∃ f, table.find? name = .ok (some f)

/-- A name that is a text is configured or not. -/
theorem FieldTable.has_or (table : FieldTable) (s : String) :
    table.Has (.text s) ∨ table.find? (.text s) = .ok none := by
  have hfind : table.find? (.text s) =
      .ok ((List.find? (fun entry => entry.1.equals (.text s)) table).map (·.2)) := rfl
  rw [Has, hfind]
  cases (List.find? (fun entry => entry.1.equals (.text s)) table).map (·.2) with
  | none => exact .inr rfl
  | some f => exact .inl ⟨f, rfl⟩

namespace Clause

/-- The check of a name that a rule at a path has. -/
def checkName (table : FieldTable) (path : Path) (name : Value) : Result Unit := do
  match ← table.find? name with
  | some _ => pure ()
  | none => throw (.unknownField name path)

theorem checkName_or (table : FieldTable) (path : Path) (s : String) :
    (checkName table path (.text s) = .ok () ∧ table.Has (.text s)) ∨
      (checkName table path (.text s) = .error (.unknownField (.text s) path) ∧
        table.find? (.text s) = .ok none) := by
  rcases table.has_or s with ⟨f, hf⟩ | hnone
  · exact .inl ⟨by rw [checkName, hf]; rfl, f, hf⟩
  · exact .inr ⟨by rw [checkName, hnone]; rfl, hnone⟩

/-- Names pass if every one is configured. -/
theorem checkNames_or (table : FieldTable) (path : Path) {names : List Value}
    (htexts : ∀ name ∈ names, ∃ s, name = .text s) :
    (names.forM (checkName table path) = .ok () ∧ ∀ name ∈ names, table.Has name) ∨
      ∃ name ∈ names, table.find? name = .ok none ∧
        names.forM (checkName table path) = .error (.unknownField name path) := by
  rcases Result.forM_or (checkName table path) names with
    ⟨hok, hall⟩ | ⟨name, hname, e, hfail, herror⟩
  · refine .inl ⟨hok, fun name hname => ?_⟩
    obtain ⟨s, rfl⟩ := htexts name hname
    rcases checkName_or table path s with ⟨-, hhas⟩ | ⟨hunknown, -⟩
    · exact hhas
    · cases (hall _ hname).symm.trans hunknown
  · obtain ⟨s, rfl⟩ := htexts name hname
    rcases checkName_or table path s with ⟨hok, -⟩ | ⟨hunknown, hnone⟩
    · cases hok.symm.trans hfail
    · obtain rfl := Except.error.inj (hunknown.symm.trans hfail)
      exact .inr ⟨.text s, hname, hnone, herror⟩

/-- **The check.**  A tree passes if every field that its rules name is configured, and is
refused for one that is not otherwise. -/
theorem checkFields_or (table : FieldTable) {t : Node}
    (htexts : ∀ r ∈ t.rules, ∀ name ∈ namedFields r, ∃ s, name = .text s) :
    (checkFields table t = .ok () ∧ ∀ r ∈ t.rules, ∀ name ∈ namedFields r, table.Has name) ∨
      ∃ r ∈ t.rules, ∃ name ∈ namedFields r, table.find? name = .ok none ∧
        ∃ path, checkFields table t = .error (.unknownField name path) := by
  obtain ⟨check, hcheck, hrule, hother⟩ : ∃ check : Path × Node → Result Unit,
      checkFields table t = t.walk.forM check ∧
      (∀ path r, check (path, .rule r) = (namedFields r).forM (checkName table path)) ∧
      ∀ path node, (∀ r, node ≠ .rule r) → check (path, node) = .ok () := by
    refine ⟨_, rfl, fun _ _ => rfl, fun path node hnode => ?_⟩
    cases node with
    | rule r => exact absurd rfl (hnode r)
    | group _ _ _ | interleaved _ _ | bare _ => rfl
  rw [hcheck]
  rcases Result.forM_or check t.walk with ⟨hok, hall⟩ | ⟨⟨path, node⟩, hentry, e, hfail, herror⟩
  · refine .inl ⟨hok, fun r hr name hname => ?_⟩
    obtain ⟨path, hpath⟩ := Node.exists_mem_walkFrom hr []
    have hpassed := hall _ hpath
    rw [hrule] at hpassed
    rcases checkNames_or table path (htexts r hr) with ⟨-, hnames⟩ | ⟨_, -, -, herror⟩
    · exact hnames name hname
    · cases hpassed.symm.trans herror
  · cases node with
    | rule r =>
      rw [hrule] at hfail
      have hr : r ∈ t.rules := Node.mem_rules_of_mem_walkFrom hentry
      rcases checkNames_or table path (htexts r hr) with ⟨hok, -⟩ | ⟨name, hname, hnone, hunknown⟩
      · cases hok.symm.trans hfail
      · obtain rfl := Except.error.inj (hunknown.symm.trans hfail)
        exact .inr ⟨r, hr, name, hname, hnone, path, herror⟩
    | group _ _ _ | interleaved _ _ | bare _ =>
      rw [hother _ _ fun r => by rintro ⟨⟩] at hfail
      cases hfail

end Clause

/-! ### Names -/

namespace Rule

/-- The other fields that a rule is about: those of its list, or the one. -/
def others (r : Rule) : List Value :=
  if r.comparesFields then
    match r.value with
    | .list items => items
    | v => [v]
  else []

/-- The fields that a rule is about. -/
def mentions (r : Rule) : List Value := r.field :: r.others

/-- The names of other fields stay what they are where they are stored, as a list or in one
text: none is empty or has outer blanks, one that stands alone has no comma in it, and of
several in one text none but the last ends with a backslash. -/
inductive KeepsNames (asLists : Bool) (r : Rule) : Prop where
  | literal : r.comparesFields = false → KeepsNames asLists r
  | one {s : String} : r.value = .text s → s ≠ "" ∧ Text.trim s = s → ',' ∉ s.toList →
      KeepsNames asLists r
  | several {names : List String} : r.value = .list (names.map .text) →
      (∀ s ∈ names, s ≠ "" ∧ Text.trim s = s) →
      (asLists = false → ∀ s ∈ names.dropLast, s.toList.getLast? ≠ some '\\') →
      KeepsNames asLists r

end Rule

/-- A plan with list values kept as lists. -/
def ParsePlan.withLists (plan : ParsePlan) : ParsePlan := { plan with listsAsArrays := true }

/-- A plan with a table of the only fields. -/
def ParsePlan.withFields (plan : ParsePlan) (table : FieldTable) : ParsePlan :=
  { plan with fields := table }

namespace Clause

/-- The names that are checked in a rule as it is stored are those that it is about. -/
theorem namedFields_finishRule {matching : Bool} {r : Rule} (hr : r.IsRead matching)
    (plan : ParsePlan) (h : (finishRule plan.withLists r).KeepsNames plan.listsAsArrays) :
    namedFields (finishRule plan r) = (finishRule plan.withLists r).mentions := by
  cases hr with
  | value field operator v =>
    have hplain (plan : ParsePlan) : (finishRule plan (.of field operator v)).field = .text field ∧
        (finishRule plan (.of field operator v)).comparesFields = false := by
      unfold finishRule
      dsimp only
      split <;> exact ⟨rfl, rfl⟩
    rw [namedFields, Rule.mentions, Rule.others, (hplain plan).1, (hplain plan).2,
      (hplain plan.withLists).1, (hplain plan.withLists).2]
    rfl
  | field field operator other _ =>
    have hitems : (Value.text other).toItems = [.text other] := by
      cases h with
      | literal hvalues => cases hvalues
      | one hvalue hproper hcomma =>
        obtain rfl := Value.text.inj hvalue
        exact Value.toItems_text hproper hcomma
      | several hvalue => cases hvalue
    show Value.text field :: (Value.text other).toItems = [.text field, .text other]
    rw [hitems]
  | fields field operator others _ =>
    have hstored (plan : ParsePlan) :
        finishRule plan (.ofFields field operator (.list (others.map .text))) =
          .ofFields field operator (if plan.listsAsArrays then .list (others.map .text)
            else .text (Value.joinItems (others.map .text))) := by
      have hplain : readsNumbers (.ofFields field operator (.list (others.map .text))) = false :=
        rfl
      simp only [finishRule, Rule.ofFields] at hplain ⊢
      simp [hplain, Function.comp_def]
    have hlists : finishRule plan.withLists (.ofFields field operator (.list (others.map .text))) =
        .ofFields field operator (.list (others.map .text)) := by
      rw [hstored]
      rfl
    rw [hlists] at h ⊢
    rw [hstored]
    show Value.text field :: Value.toItems (if plan.listsAsArrays then .list (others.map .text)
      else .text (Value.joinItems (others.map .text))) = Value.text field :: others.map .text
    cases h with
    | literal hvalues => cases hvalues
    | one hvalue => cases hvalue
    | @several names hvalue hproper hends =>
      have hnames : others.map Value.text = names.map .text := Value.list.inj hvalue
      rw [hnames]
      cases harrays : plan.listsAsArrays with
      | true => rw [if_pos rfl, Value.toItems_list hproper]
      | false =>
        rw [if_neg Bool.false_ne_true, Value.toItems_joinItems hproper (hends harrays)]

/-! ### Trees -/

/-- The tree of a group in the shape that the plan asks for. -/
def shaped (plan : ParsePlan) (group : Node) : Result Node :=
  if plan.interleaved then .ok group else group.toStandard

/-- A tree in which every field is configured, if any are. -/
def checked (plan : ParsePlan) (tree : Node) : Result Node :=
  if plan.fields.isEmpty then .ok tree else (checkFields plan.fields tree).map fun _ => tree

/-- The check changes nothing. -/
theorem eq_of_checked {plan : ParsePlan} {tree t : Node} (h : checked plan tree = .ok t) :
    tree = t := by
  unfold checked at h
  split at h
  · exact Except.ok.inj h
  · obtain ⟨_, -, rfl⟩ := Result.map_eq_ok h
    rfl

/-- A tree passes if every field that its rules name is configured, or none are. -/
theorem checked_eq_ok_iff (plan : ParsePlan) {t : Node}
    (htexts : ∀ r ∈ t.rules, ∀ name ∈ namedFields r, ∃ s, name = .text s) :
    checked plan t = .ok t ↔
      plan.fields = [] ∨ ∀ r ∈ t.rules, ∀ name ∈ namedFields r, plan.fields.Has name := by
  cases hfields : plan.fields with
  | nil => exact iff_of_true (by rw [checked, hfields]; rfl) (.inl rfl)
  | cons entry rest =>
    rw [← hfields, checked, if_neg (by simp [hfields])]
    rcases checkFields_or plan.fields htexts with
      ⟨hok, hall⟩ | ⟨r, hr, name, hname, hnone, path, herror⟩
    · exact iff_of_true (by rw [hok]; rfl) (.inr hall)
    · refine iff_of_false (by rw [herror]; nofun) ?_
      rintro (hfree | hall)
      · rw [hfree] at hfields
        cases hfields
      · obtain ⟨f, hf⟩ := hall r hr name hname
        cases hf.symm.trans hnone

/-- The group that a tree is built from. -/
def rootOf (traits : SourceTraits) : Option Clause → Clause
  | none => unwrapRoot traits (.empty false)
  | some c => unwrapRoot traits (if c.isConstant then .empty false else c)

/-- A tree is built in three steps. -/
theorem toTree_eq (traits : SourceTraits) (plan : ParsePlan) (root : Option Clause) :
    toTree traits plan root =
      toGroup traits plan (rootOf traits root) >>= fun group =>
        shaped plan group >>= checked plan := by
  have hsteps (c : Clause) :
      (do
        let group ← toGroup traits plan c
        let tree ← if plan.interleaved then pure group else group.toStandard
        if !plan.fields.isEmpty then checkFields plan.fields tree
        return tree) =
      toGroup traits plan c >>= fun group => shaped plan group >>= checked plan := by
    refine congrArg (toGroup traits plan c >>= ·) (funext fun group => ?_)
    have hcheck (tree : Node) : checked plan tree = (do
        if !plan.fields.isEmpty then checkFields plan.fields tree
        return tree) := by
      unfold checked
      cases plan.fields.isEmpty with
      | true => rfl
      | false => cases checkFields plan.fields tree <;> rfl
    rw [funext hcheck, shaped]
    cases plan.interleaved <;> rfl
  cases root with
  | none => exact hsteps _
  | some c => exact hsteps _

/-- What a reader found is the group of what a reader found. -/
theorem IsRead.rootOf {matching : Bool} (traits : SourceTraits) {root : Option Clause}
    (hroot : ∀ c ∈ root, c.IsRead matching) : (rootOf traits root).IsRead matching := by
  cases root with
  | none => exact (IsReadWithin.empty false).unwrapRoot traits
  | some c =>
    refine IsReadWithin.unwrapRoot traits (c := if c.isConstant then .empty false else c) ?_
    split
    · exact .empty false
    · exact hroot c rfl

theorem rules_of_shaped {plan : ParsePlan} {group tree : Node} (h : shaped plan group = .ok tree) :
    tree.rules = group.rules := by
  unfold shaped at h
  split at h
  · rw [Except.ok.inj h]
  · exact Node.rules_of_toStandard h

theorem exists_shaped (plan : ParsePlan) {matching : Bool} {group : Node}
    (hgroup : ∃ flags items, group = .interleaved flags items) (hread : group.IsRead matching) :
    ∃ tree, shaped plan group = .ok tree := by
  unfold shaped
  split
  · exact ⟨group, rfl⟩
  · obtain ⟨flags, items, rfl⟩ := hgroup
    exact hread.isTree.exists_standardMember hread.not_hasMixture

/-- Under every plan for the same depth the group is made of the same rules. -/
theorem toGroup_of_verbatim {traits : SourceTraits} {plan : ParsePlan} (plan' : ParsePlan)
    (h : plan'.verbatim = plan.verbatim) {c : Clause} {source : Node}
    (hsource : toGroup traits plan.verbatim c = .ok source) :
    toGroup traits plan' c = .ok (source.mapRules (finishRule plan')) := by
  rw [toGroup_eq_map, h, hsource]
  rfl

theorem rules_of_shaped_mapRules {plan : ParsePlan} {f : Rule → Rule} {source tree : Node}
    (h : shaped plan (source.mapRules f) = .ok tree) : tree.rules = source.rules.map f := by
  rw [rules_of_shaped h, Node.rules_mapRules]

/-- The check of a tree is one of the names that its rules are about, where these are kept. -/
theorem checkFields_or_of_keepsNames {matching : Bool} {plan : ParsePlan} (table : FieldTable)
    {rules : List Rule} (hread : ∀ r ∈ rules, r.IsRead matching) {tree whole : Node}
    (htree : tree.rules = rules.map (finishRule plan))
    (hwhole : whole.rules = rules.map (finishRule plan.withLists))
    (hkeeps : ∀ r ∈ whole.rules, r.KeepsNames plan.listsAsArrays) :
    (checkFields table tree = .ok () ∧
        ∀ r ∈ whole.rules, ∀ name ∈ r.mentions, table.Has name) ∨
      ∃ r ∈ whole.rules, ∃ name ∈ r.mentions, table.find? name = .ok none ∧
        ∃ path, checkFields table tree = .error (.unknownField name path) := by
  rw [hwhole] at hkeeps ⊢
  have hnames : ∀ r ∈ rules,
      namedFields (finishRule plan r) = (finishRule plan.withLists r).mentions := fun r hr =>
    namedFields_finishRule (hread r hr) plan (hkeeps _ (List.mem_map_of_mem hr))
  have htexts : ∀ r ∈ tree.rules, ∀ name ∈ namedFields r, ∃ s, name = .text s := by
    rw [htree]
    refine List.forall_mem_map.mpr fun r hr name hname => ?_
    exact ((hread r hr).finish plan).exists_text_of_mem_namedFields hname
  rcases checkFields_or table htexts with
    ⟨hok, hall⟩ | ⟨r, hr, name, hname, hnone, path, herror⟩
  · refine .inl ⟨hok, List.forall_mem_map.mpr fun r hr => ?_⟩
    rw [← hnames r hr]
    exact hall _ (by rw [htree]; exact List.mem_map_of_mem hr)
  · rw [htree] at hr
    obtain ⟨r', hr', rfl⟩ := List.mem_map.mp hr
    rw [hnames r' hr'] at hname
    exact .inr ⟨_, List.mem_map_of_mem hr', name, hname, hnone, path, herror⟩

/-- **Configured fields.**  A clause whose tree keeps the names in it has the same tree with
configured fields, if they have every field that its rules are about, and is refused for one
that they do not have otherwise. -/
theorem toTree_withFields {matching : Bool} (traits : SourceTraits) {plan : ParsePlan}
    (hplan : plan.CountsDepth) (hfree : plan.fields = []) {root : Option Clause}
    (hroot : ∀ c ∈ root, c.IsRead matching) {t : Node} (h : toTree traits plan root = .ok t)
    {table : FieldTable} (hsome : table ≠ []) :
    ∃ whole, toTree traits plan.withLists root = .ok whole ∧
      ((∀ r ∈ whole.rules, r.KeepsNames plan.listsAsArrays) →
        (toTree traits (plan.withFields table) root = .ok t ∧
          ∀ r ∈ whole.rules, ∀ name ∈ r.mentions, table.Has name) ∨
        ∃ r ∈ whole.rules, ∃ name ∈ r.mentions, table.find? name = .ok none ∧
          ∃ path, toTree traits (plan.withFields table) root =
            .error (.unknownField name path)) := by
  have hbuild (plan : ParsePlan) := toTree_eq traits plan root
  have hc := IsRead.rootOf traits hroot
  generalize rootOf traits root = c at hbuild hc
  rw [hbuild] at h ⊢
  obtain ⟨group, hgroup, h⟩ := Result.bind_eq_ok h
  obtain ⟨tree, htree, h⟩ := Result.bind_eq_ok h
  obtain rfl := eq_of_checked h
  -- all three groups are those of the same rules, differently stored
  rw [toGroup_eq_map] at hgroup
  obtain ⟨source, hsource, rfl⟩ := Result.map_eq_ok hgroup
  have hread : source.IsRead matching := by
    have hverbatim : plan.verbatim.CountsDepth := hplan
    exact ((hc.reads_toGroup traits hverbatim.within).gives source hsource).2.shape
  have hlists := toGroup_of_verbatim plan.withLists rfl hsource
  have hstored := toGroup_of_verbatim (plan.withFields table) rfl hsource
  obtain ⟨whole, hwhole⟩ : ∃ whole,
      shaped plan.withLists (source.mapRules (finishRule plan.withLists)) = .ok whole := by
    have hcounts : plan.withLists.CountsDepth := hplan
    obtain ⟨hitems, hlisted⟩ := (hc.reads_toGroup traits hcounts.within).gives _ hlists
    exact exists_shaped _ hitems hlisted.shape
  have hfields : toTree traits (plan.withFields table) root =
      (checkFields table tree).map fun _ => tree := by
    have hshape : shaped (plan.withFields table)
        (source.mapRules (finishRule (plan.withFields table))) = .ok tree := htree
    rw [hbuild, hstored, Result.ok_bind, hshape, Result.ok_bind, checked, if_neg]
    · rfl
    · simpa [ParsePlan.withFields] using hsome
  refine ⟨whole, ?_, fun hkeeps => ?_⟩
  · rw [hlists, Result.ok_bind, hwhole, Result.ok_bind, checked, if_pos]
    simp [ParsePlan.withLists, hfree]
  rw [hfields]
  rcases checkFields_or_of_keepsNames table hread.of_mem_rules (rules_of_shaped_mapRules htree)
      (rules_of_shaped_mapRules hwhole) hkeeps with
    ⟨hok, hall⟩ | ⟨r, hr, name, hname, hnone, path, herror⟩
  · exact .inl ⟨by rw [hok]; rfl, hall⟩
  · exact .inr ⟨r, hr, name, hname, hnone, path, by rw [herror]; rfl⟩

end Clause

/-! ### Options -/

namespace ParseOptions

/-- The limit of the depth that options give, if it is one. -/
def depthLimit (o : ParseOptions) : Result (Option Value) :=
  match o.maxDepth with
  | .null => .ok none
  | limit => do
    if ← limit.lessThanInt 1 then throw (.invalidOption .depthTooSmall)
    return some limit

/-- The steps from options to a plan. -/
theorem resolve_eq (o : ParseOptions) : o.resolve = (do
    let maxDepth ← o.depthLimit
    let policy ← NumberPolicy.ofValue o.parseNumbers
    let fields ← FieldTable.ofInput o.fields
    return {
      policy := policy
      fields := fields
      interleaved := o.interleaved.truthy
      listsAsArrays := o.listsAsArrays.truthy
      maxDepth := maxDepth }) := by
  unfold resolve depthLimit
  generalize o.maxDepth = limit
  cases limit
  case null => rfl
  all_goals
    dsimp only
    generalize Value.lessThanInt _ 1 = small
    rcases small with _ | small
    · rfl
    · cases small <;> rfl

/-- What a plan has of the options that it comes from. -/
theorem of_resolve {o : ParseOptions} {plan : ParsePlan} (h : o.resolve = .ok plan) :
    o.depthLimit = .ok plan.maxDepth ∧ NumberPolicy.ofValue o.parseNumbers = .ok plan.policy ∧
      FieldTable.ofInput o.fields = .ok plan.fields ∧ plan.interleaved = o.interleaved.truthy ∧
      plan.listsAsArrays = o.listsAsArrays.truthy := by
  rw [resolve_eq] at h
  obtain ⟨maxDepth, hdepth, h⟩ := Result.bind_eq_ok h
  obtain ⟨policy, hpolicy, h⟩ := Result.bind_eq_ok h
  obtain ⟨fields, hfields, h⟩ := Result.bind_eq_ok h
  obtain rfl := Except.ok.inj h
  exact ⟨hdepth, hpolicy, hfields, rfl, rfl⟩

variable {o : ParseOptions} {plan : ParsePlan} (h : o.resolve = .ok plan)
include h

/-- No plan refuses the root. -/
theorem checkDepth_one : plan.checkDepth 1 = .ok () := by
  obtain ⟨hdepth, -⟩ := of_resolve h
  cases hlimit : plan.maxDepth with
  | none => rw [ParsePlan.checkDepth, hlimit]
  | some limit =>
    rw [hlimit, depthLimit] at hdepth
    split at hdepth
    · cases hdepth
    · obtain ⟨small, hsmall, hdepth⟩ := Result.bind_eq_ok hdepth
      cases small with
      | true => cases hdepth
      | false =>
        obtain rfl := Option.some.inj (Except.ok.inj hdepth)
        rw [ParsePlan.checkDepth, hlimit]
        show (Value.lessThanInt _ 1 >>= _) = _
        rw [hsmall]
        rfl

theorem resolve_withFields {input : FieldsInput} {table : FieldTable}
    (htable : FieldTable.ofInput input = .ok table) :
    ({ o with fields := input } : ParseOptions).resolve = .ok (plan.withFields table) := by
  obtain ⟨hdepth, hpolicy, -, hinterleaved, hlists⟩ := of_resolve h
  have hlimit : ({ o with fields := input } : ParseOptions).depthLimit = .ok plan.maxDepth := hdepth
  rw [resolve_eq, hlimit, Result.ok_bind, hpolicy, Result.ok_bind, htable, Result.ok_bind,
    ← hinterleaved, ← hlists]
  rfl

theorem resolve_withLists :
    ({ o with listsAsArrays := .bool true } : ParseOptions).resolve = .ok plan.withLists := by
  obtain ⟨hdepth, hpolicy, hfields, hinterleaved, -⟩ := of_resolve h
  have hlimit : ({ o with listsAsArrays := .bool true } : ParseOptions).depthLimit =
      .ok plan.maxDepth := hdepth
  rw [resolve_eq, hlimit, Result.ok_bind, hpolicy, Result.ok_bind, hfields, Result.ok_bind,
    ← hinterleaved]
  rfl

omit h in
/-- Further settings come after those that are there. -/
theorem build_append {input : OptionsInput ParseOptions} {overrides : List (String × OptionValue)}
    (hbuild : build input overrides = .ok o) (more : List (String × OptionValue)) :
    build input (overrides ++ more) = o.merge more := by
  have hmerge {base : ParseOptions} (h : base.merge overrides = .ok o) :
      base.merge (overrides ++ more) = o.merge more := by
    rw [merge] at h ⊢
    rw [List.foldlM_append, h]
    rfl
  cases input with
  | defaults | options base => exact hmerge hbuild
  | settings row =>
    obtain ⟨base, hbase, h⟩ := Result.bind_eq_ok hbuild
    show (ParseOptions.merge {} row >>= _) = _
    rw [hbase]
    exact hmerge h
  | name _ | other _ => cases hbuild

end ParseOptions

namespace Query

/-- The tree of a source by a reader under a plan. -/
def readSource (entry : String × Reader) (source : Source) (plan : ParsePlan) : Result Node :=
  match source with
  | .value v => entry.2 plan v
  | .filter f => (filterFault entry.1 f).fail
  | .foreign document =>
    if entry.1 = "mongodb" then Misuse.missingOperation.fail else entry.2 plan document

theorem parse_eq_readSource {source : Source} {dialect : Value} {entry : String × Reader}
    {input : OptionsInput ParseOptions} {overrides : List (String × OptionValue)}
    {o : ParseOptions} {plan : ParsePlan} (hreader : reader dialect = .ok entry)
    (hbuild : ParseOptions.build input overrides = .ok o) (hplan : o.resolve = .ok plan) :
    parse source dialect input overrides = readSource entry source plan := by
  rw [parse, hreader, Result.ok_bind, hbuild]
  show (o.resolve >>= fun plan => readSource entry source plan) = _
  rw [hplan]
  rfl

/-- A source that has a tree is a value that the reader is given under any plan. -/
theorem exists_value_of_readSource {entry : String × Reader} {source : Source} {plan : ParsePlan}
    {t : Node} (h : readSource entry source plan = .ok t) :
    ∃ v, readSource entry source = fun plan => entry.2 plan v := by
  cases source with
  | value v => exact ⟨v, rfl⟩
  | filter f => cases h
  | foreign document =>
    refine ⟨document, funext fun plan' => if_neg fun hname => ?_⟩
    rw [readSource, if_pos hname] at h
    cases h

/-- **Configured fields.**  A source that is read without configured fields is read as the
same tree with them, if every field that it names is configured, and is refused for one that
is not otherwise.  The fields that it names are those of its tree with list values kept as
lists, and the names of other fields must be such that they can be stored. -/
theorem parse_withFields {source : Source} {dialect : Value} {input : OptionsInput ParseOptions}
    {overrides : List (String × OptionValue)} {o : ParseOptions} {t : Node}
    (hbuild : ParseOptions.build input overrides = .ok o)
    (hfree : FieldTable.ofInput o.fields = .ok [])
    (hparse : parse source dialect input overrides = .ok t)
    {fields : FieldsInput} {table : FieldTable} (htable : FieldTable.ofInput fields = .ok table)
    (hsome : table ≠ []) :
    ∃ whole, parse source dialect input
        (overrides ++ [("lists_as_arrays", .plain (.bool true))]) = .ok whole ∧
      ((∀ r ∈ whole.rules, r.KeepsNames o.listsAsArrays.truthy) →
        (parse source dialect input (overrides ++ [("fields", .fields fields)]) = .ok t ∧
          ∀ r ∈ whole.rules, ∀ name ∈ r.mentions, table.Has name) ∨
        ∃ r ∈ whole.rules, ∃ name ∈ r.mentions, table.find? name = .ok none ∧
          ∃ path, parse source dialect input (overrides ++ [("fields", .fields fields)]) =
            .error (.unknownField name path)) := by
  obtain ⟨entry, hreader, hrest⟩ := Result.bind_eq_ok hparse
  obtain ⟨options, hoptions, hrest⟩ := Result.bind_eq_ok hrest
  obtain rfl : o = options := Except.ok.inj (hbuild.symm.trans hoptions)
  obtain ⟨plan, hplan, -⟩ := Result.bind_eq_ok hrest
  obtain ⟨-, -, hfields, -, hlists⟩ := ParseOptions.of_resolve hplan
  have hnone : plan.fields = [] := Except.ok.inj (hfields.symm.trans hfree)
  have hcounts : plan.CountsDepth := ParseOptions.countsDepth_of_resolve hplan
  -- the three calls differ in the plan alone
  have hagain {more : List (String × OptionValue)} {o' : ParseOptions} {plan' : ParsePlan}
      (hmore : o.merge more = .ok o') (hplan' : o'.resolve = .ok plan') :
      parse source dialect input (overrides ++ more) = readSource entry source plan' :=
    parse_eq_readSource hreader ((ParseOptions.build_append hbuild more).trans hmore) hplan'
  rw [hagain rfl (ParseOptions.resolve_withLists hplan),
    hagain rfl (ParseOptions.resolve_withFields hplan htable), ← hlists]
  rw [parse_eq_readSource hreader hbuild hplan] at hparse
  obtain ⟨v, hread⟩ := exists_value_of_readSource hparse
  obtain ⟨traits, clause, hclause, hentry⟩ :=
    exists_clause_of_mem_readers (mem_readers hreader) hcounts v
  rw [hread] at hparse ⊢
  dsimp only at hparse ⊢
  rw [hentry plan rfl] at hparse
  obtain ⟨root, hroot, htree⟩ := Result.bind_eq_ok hparse
  rw [hentry plan.withLists rfl, hentry (plan.withFields table) rfl, hroot]
  exact Clause.toTree_withFields traits hcounts hnone (hclause.gives root hroot) htree hsome

/-- Fields with nothing but their names. -/
def named (names : List String) : FieldsInput :=
  .list (names.map fun name => .field { name := .text name })

/-- That `a` is one of `b,c` and `d`. -/
def listedSpecimen : Value :=
  .map [("in", .list [.map [("var", .text "a")],
    .list [.map [("var", .text "b,c")], .map [("var", .text "d")]]])]

theorem parse_withFields_listed :
    parse (.value listedSpecimen) (.text "jsonlogic") .defaults [] =
      .ok (.group (.text "and") {} [.rule (.ofFields "a" .isIn (.text "b\\,c,d"))]) ∧
    ∃ name path, parse (.value listedSpecimen) (.text "jsonlogic") .defaults
      [("fields", .fields (named ["a", "b,c", "c"]))] = .error (.unknownField name path) := by
  have hparse : parse (.value listedSpecimen) (.text "jsonlogic") .defaults [] =
      .ok (.group (.text "and") {} [.rule (.ofFields "a" .isIn (.text "b\\,c,d"))]) := rfl
  have hbuild : ParseOptions.build .defaults [] = .ok {} := rfl
  have htable : FieldTable.ofInput (named ["a", "b,c", "c"]) =
      .ok (["a", "b,c", "c"].map fun name => (.text name, { name := .text name })) := rfl
  obtain ⟨whole, hwhole, hor⟩ := parse_withFields hbuild rfl hparse htable nofun
  obtain rfl : Node.group (.text "and") {} [.rule (.ofFields "a" .isIn
      (.list [.text "b,c", .text "d"]))] = whole := Except.ok.inj hwhole
  have hkeeps : (Rule.ofFields "a" .isIn (.list [.text "b,c", .text "d"])).KeepsNames false :=
    .several (rfl : _ = Value.list (["b,c", "d"].map .text)) (by decide) fun _ => by decide
  have hall : ∀ r ∈ [Rule.ofFields "a" .isIn (.list [.text "b,c", .text "d"])],
      r.KeepsNames false := List.forall_mem_singleton.mpr hkeeps
  rcases hor hall with ⟨-, hhas⟩ | ⟨-, -, name, -, -, path, herror⟩
  · have hmention : Value.text "d" ∈
        (Rule.ofFields "a" .isIn (.list [.text "b,c", .text "d"])).mentions :=
      List.mem_of_getElem? (rfl : _[2]? = _)
    obtain ⟨f, hf⟩ := hhas _ List.mem_cons_self _ hmention
    cases hf
  · exact ⟨hparse, name, path, herror⟩

/-- That `a` is `b,c`. -/
def commaSpecimen : Value :=
  .map [("==", .list [.map [("var", .text "a")], .map [("var", .text "b,c")]])]

/-- A field with a comma in its name is refused where it is configured, and accepted where it
is not. -/
theorem parse_withFields_comma :
    parse (.value commaSpecimen) (.text "jsonlogic") .defaults [] =
      .ok (.group (.text "and") {} [.rule (.ofFields "a" .eq (.text "b,c"))]) ∧
    parse (.value commaSpecimen) (.text "jsonlogic") .defaults
        [("fields", .fields (named ["a", "b,c"]))] =
      .error (.unknownField (.text "b") [0]) ∧
    parse (.value commaSpecimen) (.text "jsonlogic") .defaults
        [("fields", .fields (named ["a", "b", "c"]))] =
      .ok (.group (.text "and") {} [.rule (.ofFields "a" .eq (.text "b,c"))]) :=
  ⟨rfl, rfl, rfl⟩

end Query
end RuleTree
