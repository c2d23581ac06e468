import RuleTree.Proofs.StandardForm
import RuleTree.Writing

/-! # Writers in lockstep

Two writers go through a tree in lockstep if they write every rule alike and join
every row of outputs alike, for some relation between their outputs.  What the
relation says may depend on the parameters bound so far: both writers have a
common progress, from which their bindings follow.  `Lockstep.writeNode` and
`Lockstep.run` go from rules and rows to whole trees.  For the rules there is
`writeRule_apply`: a rule that the caller leaves to the library is written by the
dialect alone.
-/
namespace RuleTree
namespace Writer
variable {α β σ : Type}

/-- Two steps of writing end alike: both fail, with errors that are related, or
both give outputs that are related, and make the same progress. -/
inductive Abreast (left right : σ → Bindings) (Alike : Error → Error → Prop) {A B : Type}
    (R : A → B → σ → Prop) : Result (A × Bindings) → Result (B × Bindings) → Prop where
  | error {e e' : Error} : Alike e e' → Abreast left right Alike R (.error e) (.error e')
  | ok {a : A} {b : B} {s : σ} : R a b s →
      Abreast left right Alike R (.ok (a, left s)) (.ok (b, right s))

/-- Outputs in a row, from one progress to another. -/
inductive Row (R : σ → α → β → σ → Prop) : σ → List α → List β → σ → Prop where
  | nil (s : σ) : Row R s [] [] s
  | cons {s s' s'' : σ} {a : α} {b : β} {as : List α} {bs : List β} :
      R s a b s' → Row R s' as bs s'' → Row R s (a :: as) (b :: bs) s''

/-- Outputs that may be missing, in which case there is no progress. -/
inductive Maybe (R : σ → α → β → σ → Prop) (s : σ) : Option α → Option β → σ → Prop where
  | none : Maybe R s none none s
  | some {a : α} {b : β} {s' : σ} : R s a b s' → Maybe R s (some a) (some b) s'

/-- Two writers, each with its plan, that write rules and join rows alike. -/
structure Lockstep (w : Writer α) (plan : FormatPlan) (v : Writer β) (plan' : FormatPlan)
    (left right : σ → Bindings) (Alike : Error → Error → Prop) (R : σ → α → β → σ → Prop)
    (P : Rule → Prop) : Prop where
  refl (e : Error) : Alike e e
  /-- The writers leave out the same outputs. -/
  isEmpty {s s' : σ} {a : α} {b : β} : R s a b s' → w.isEmpty a = v.isEmpty b
  /-- No progress is made for an output that is left out. -/
  skip {s s' : σ} {a : α} {b : β} : R s a b s' → w.isEmpty a = true → s' = s
  rule {r : Rule} : P r → ∀ s path, Abreast left right Alike (R s)
    (w.writeRule plan path r (left s)) (v.writeRule plan' path r (right s))
  /-- A row that is not empty is joined, or refused, by both. -/
  combine {s s' : σ} {as : List α} {bs : List β} : Row R s as bs s' → as ≠ [] →
    ∀ combinator negated isRoot,
      (∃ a b, w.combine combinator negated isRoot as = .ok a ∧
        v.combine combinator negated isRoot bs = .ok b ∧ R s a b s') ∨
      ∃ e e', w.combine combinator negated isRoot as = .error e ∧
        v.combine combinator negated isRoot bs = .error e' ∧ Alike e e'

section
variable {left right : σ → Bindings} {Alike : Error → Error → Prop} {A B C D : Type}

/-- Steps that end alike go on alike if what follows does. -/
theorem Abreast.bind {R : A → B → σ → Prop} {Q : C → D → σ → Prop} {x : Result (A × Bindings)}
    {y : Result (B × Bindings)} {f : A × Bindings → Result (C × Bindings)}
    {g : B × Bindings → Result (D × Bindings)} (h : Abreast left right Alike R x y)
    (hnext : ∀ a b s, R a b s → Abreast left right Alike Q (f (a, left s)) (g (b, right s))) :
    Abreast left right Alike Q (x >>= f) (y >>= g) := by
  cases h with
  | error he => exact .error he
  | ok hr => exact hnext _ _ _ hr

/-- Both may take the same step first. -/
theorem Abreast.after {X : Type} (hrefl : ∀ e, Alike e e) {Q : A → B → σ → Prop} {x : Result X}
    {f : X → Result (A × Bindings)} {g : X → Result (B × Bindings)}
    (hnext : ∀ a, x = .ok a → Abreast left right Alike Q (f a) (g a)) :
    Abreast left right Alike Q (x >>= f) (x >>= g) := by
  cases x with
  | error e => exact .error (hrefl e)
  | ok a => exact hnext a rfl

end

/-! ### Trees -/

namespace Lockstep
variable {w : Writer α} {plan : FormatPlan} {v : Writer β} {plan' : FormatPlan}
  {left right : σ → Bindings} {Alike : Error → Error → Prop} {R : σ → α → β → σ → Prop}
  {P : Rule → Prop} (h : Lockstep w plan v plan' left right Alike R P)
include h

/-- An output is kept by both writers or left out by both. -/
theorem keep {s s' : σ} {a : α} {b : β} (hr : R s a b s') :
    Maybe R s (if w.isEmpty a then none else some a) (if v.isEmpty b then none else some b) s' := by
  rw [← h.isEmpty hr]
  cases hempty : w.isEmpty a with
  | true =>
    obtain rfl := h.skip hr hempty
    exact .none
  | false => exact .some hr

omit h in
/-- Members in lockstep are so in a row. -/
theorem writeMembers {judgement : Judgement} {nodes : List Node}
    (ih : ∀ node ∈ nodes, ∀ s path, Abreast left right Alike (Maybe R s)
      (w.writeNode plan judgement path node (left s))
      (v.writeNode plan' judgement path node (right s))) (s : σ) (path : Path) (position : Nat) :
    Abreast left right Alike (Row R s)
      (w.writeMembers plan judgement path position nodes (left s))
      (v.writeMembers plan' judgement path position nodes (right s)) := by
  induction nodes generalizing s position with
  | nil =>
    rw [Writer.writeMembers, Writer.writeMembers]
    exact .ok (.nil s)
  | cons node nodes ihn =>
    obtain ⟨hnode, hrest⟩ := List.forall_mem_cons.mp ih
    rw [Writer.writeMembers, Writer.writeMembers]
    refine (hnode s _).bind fun a b s' hab => (ihn hrest s' _).bind fun as bs s'' hrow => ?_
    cases hab with
    | none => exact .ok hrow
    | some hr => exact .ok (.cons hr hrow)

/-- **Trees in lockstep.**  Writers that are in lockstep on rules and rows are so
on every tree of such rules. -/
theorem writeNode {judgement : Judgement} {t : Node} (ht : ∀ r ∈ t.rules, P r) (s : σ)
    (path : Path) : Abreast left right Alike (Maybe R s)
      (w.writeNode plan judgement path t (left s))
      (v.writeNode plan' judgement path t (right s)) := by
  induction t using Node.induct generalizing s path with
  | bare | interleaved => exact .error (h.refl _)
  | rule r =>
    unfold Writer.writeNode
    cases hskip : r.disabled || !judgement.passes path with
    | true => exact .ok .none
    | false =>
      refine (h.rule (ht r (by simp)) s path).bind fun a b s' hr => ?_
      exact .ok (h.keep hr)
  | group combinator flags children ih =>
    rw [Node.rules_group] at ht
    have hmembers := writeMembers (fun child hchild s path =>
      ih child hchild (fun r hr => ht r (List.mem_flatMap.mpr ⟨child, hchild, hr⟩)) s path) s path 0
    unfold Writer.writeNode
    cases hskip : flags.disabled || !judgement.passes path with
    | true => exact .ok .none
    | false =>
      refine hmembers.bind fun as bs s' hrow => ?_
      cases hrow with
      | nil => exact .ok .none
      | cons hr hrest =>
        rcases h.combine (.cons hr hrest) (List.cons_ne_nil _ _) combinator flags.negated
          path.isEmpty with ⟨a, b, ha, hb, hab⟩ | ⟨e, e', ha, hb, he⟩
        · simp only [ha, hb]
          exact .ok (h.keep hab)
        · simp only [ha, hb]
          exact .error he

/-- **Queries in lockstep.**  So they are on every query whose rules are such, if
they validate it alike. -/
theorem run (hvalidate : plan.validate = plan'.validate)
    (hvalidator : plan.validatorOrDefault = plan'.validatorOrDefault) {s : σ}
    (hleft : left s = {}) (hright : right s = {}) {t : Node} (ht : ∀ r ∈ t.rules, P r) :
    Abreast left right Alike (Maybe R s) (w.run plan t) (v.run plan' t) := by
  have hnode : ∀ root : Node, root.rules = t.rules → ∀ judgement, Abreast left right Alike
      (Maybe R s) (w.writeNode plan judgement [] root {})
      (v.writeNode plan' judgement [] root {}) := by
    intro root hroot judgement
    have hrules : ∀ r ∈ root.rules, P r := by rwa [hroot]
    have hstart : Abreast left right Alike (Maybe R s)
        (w.writeNode plan judgement [] root (left s))
        (v.writeNode plan' judgement [] root (right s)) := h.writeNode hrules s []
    rwa [hleft, hright] at hstart
  -- the judgement is the same for both, if there is one
  have hjudged : ∀ root : Node, root.rules = t.rules → Abreast left right Alike (Maybe R s)
      (do
        let validator ← plan'.validatorOrDefault
        let entries ← validator.validate root
        w.writeNode plan (some entries) [] root {})
      (do
        let validator ← plan'.validatorOrDefault
        let entries ← validator.validate root
        v.writeNode plan' (some entries) [] root {}) :=
    fun root hroot => .after h.refl fun _ _ => .after h.refl fun _ _ => hnode root hroot _
  unfold Writer.run
  simp only [hvalidate, hvalidator]
  have hsingle : ∀ r, (Node.ofChildren "and" [.rule r]).rules = (Node.rule r).rules := fun r => by
    simp [Node.ofChildren]
  have hstandard : ∀ root, t.toStandard = .ok root → root.rules = t.rules :=
    fun _ => Node.rules_of_toStandard
  cases plan'.validate with
  | false =>
    split
    case h_1 r => exact hnode _ (hsingle r) none
    case h_2 => exact .after h.refl fun root hroot => hnode root (hstandard root hroot) none
  | true =>
    split
    case h_1 r => exact hjudged _ (hsingle r)
    case h_2 => exact .after h.refl fun root hroot => hjudged root (hstandard root hroot)

end Lockstep

/-! ### One writer under two plans -/

section
variable {w : Writer α}

/-- A tree is written alike under two plans if its rules are. -/
theorem writeNode_congr {plan plan' : FormatPlan} {judgement : Judgement} {t : Node}
    (h : ∀ r ∈ t.rules, ∀ path, w.writeRule plan path r = w.writeRule plan' path r) (path : Path) :
    w.writeNode plan judgement path t = w.writeNode plan' judgement path t := by
  induction t using Node.induct generalizing path with
  | rule r => rw [writeNode, writeNode, h r (by simp)]
  | bare v => rfl
  | interleaved flags items => rfl
  | group combinator flags children ih =>
    have hmembers : ∀ position, w.writeMembers plan judgement path position children =
        w.writeMembers plan' judgement path position children := by
      rw [Node.rules_group] at h
      induction children with
      | nil => intro position; rw [writeMembers, writeMembers]
      | cons child children ihc =>
        intro position
        obtain ⟨hchild, hrest⟩ := List.forall_mem_cons.mp ih
        rw [List.flatMap_cons] at h
        obtain ⟨hhere, hthere⟩ := List.forall_mem_append.mp h
        rw [writeMembers, writeMembers, hchild hhere, ihc hrest hthere]
    rw [writeNode, writeNode, hmembers]

/-- **Queries under two plans.**  So is a query, if both plans validate it alike. -/
theorem run_congr {plan plan' : FormatPlan} (hvalidate : plan.validate = plan'.validate)
    (hvalidator : plan.validatorOrDefault = plan'.validatorOrDefault) {t : Node}
    (h : ∀ r ∈ t.rules, ∀ path, w.writeRule plan path r = w.writeRule plan' path r) :
    w.run plan t = w.run plan' t := by
  have hnode : ∀ root : Node, root.rules = t.rules → ∀ judgement,
      w.writeNode plan judgement [] root {} = w.writeNode plan' judgement [] root {} := by
    intro root hroot judgement
    exact congrFun (writeNode_congr (by rwa [hroot]) []) {}
  have hjudged : ∀ root : Node, root.rules = t.rules →
      (do
        let validator ← plan'.validatorOrDefault
        let entries ← validator.validate root
        w.writeNode plan (some entries) [] root {}) = (do
        let validator ← plan'.validatorOrDefault
        let entries ← validator.validate root
        w.writeNode plan' (some entries) [] root {}) :=
    fun root hroot => Result.bind_congr fun _ _ => Result.bind_congr fun _ _ => hnode root hroot _
  have hsingle : ∀ r, (Node.ofChildren "and" [.rule r]).rules = (Node.rule r).rules := fun r => by
    simp [Node.ofChildren]
  have hstandard : ∀ root, t.toStandard = .ok root → root.rules = t.rules :=
    fun _ => Node.rules_of_toStandard
  unfold run
  simp only [hvalidate, hvalidator]
  cases plan'.validate with
  | false =>
    split
    case h_1 r => exact hnode _ (hsingle r) none
    case h_2 => exact Result.bind_congr fun root hroot => hnode root (hstandard root hroot) none
  | true =>
    split
    case h_1 r => exact hjudged _ (hsingle r)
    case h_2 => exact Result.bind_congr fun root hroot => hjudged root (hstandard root hroot)

end

end Writer

/-! ### Rules in the dialect's own way -/

/-- The field of a rule bears on the number policy alone. -/
theorem FormatPlan.eq_of_forField {plan plan' : FormatPlan} {field : Option Field}
    (h : plan.forField field = .ok plan') :
    ∃ policy, plan' = { plan with style := { plan.style with policy := policy } } := by
  cases field with
  | none => exact ⟨plan.style.policy, (Except.ok.inj h).symm⟩
  | some f =>
    obtain ⟨numeric, -, h⟩ := Result.bind_eq_ok h
    split at h
    · exact ⟨.strict, (Except.ok.inj h).symm⟩
    · exact ⟨plan.style.policy, (Except.ok.inj h).symm⟩

/-- Plans that differ in nothing that fields bear on do so under every field. -/
theorem FormatPlan.forField_map {f : FormatPlan → FormatPlan} {plan : FormatPlan}
    (h : ∀ policy, f { plan with style := { plan.style with policy := policy } } =
      { f plan with style := { (f plan).style with policy := policy } })
    (field : Option Field) : (f plan).forField field = (plan.forField field).map f := by
  have hpolicy : (f plan).style.policy = plan.style.policy :=
    congrArg (·.style.policy) (h plan.style.policy)
  cases field with
  | none => rfl
  | some g =>
    unfold forField
    dsimp only
    cases g.isNumeric with
    | error e => rfl
    | ok numeric =>
      simp only [Result.ok_bind, hpolicy]
      split
      · exact congrArg Except.ok (h .strict).symm
      · rfl

namespace FormatPlan
variable (plan : FormatPlan) (r : Rule)

/-- Whether the field of a rule is configured as a numeric one. -/
def hasNumericField : Bool :=
  match plan.style.fields.find? r.field with
  | .ok (some f) => match f.isNumeric with
    | .ok numeric => numeric
    | .error _ => false
  | _ => false

/-- The number policy for the values of a rule: those of numeric fields have one even
where the caller has none. -/
def policyOf : NumberPolicy :=
  if plan.hasNumericField r ∧ plan.style.policy = .never then .strict else plan.style.policy

variable {plan r}

theorem policy_of_forField {plan' : FormatPlan} {path : Path} {field : Option Field}
    (hfield : plan.fieldOf r path = .ok field) (h : plan.forField field = .ok plan') :
    plan'.style.policy = plan.policyOf r := by
  unfold fieldOf at hfield
  cases hfields : plan.style.fields with
  | nil =>
    rw [hfields] at hfield
    obtain rfl : none = field := Except.ok.inj hfield
    obtain rfl : plan = plan' := Except.ok.inj h
    have hnumeric : plan.hasNumericField r = false := by
      rw [hasNumericField, hfields]
      cases r.field <;> rfl
    rw [policyOf, hnumeric]
    simp
  | cons entry rest =>
    rw [hfields] at hfield
    obtain ⟨found, hfound, hfield⟩ := Result.bind_eq_ok hfield
    cases found with
    | none => cases hfield
    | some f =>
      obtain rfl : some f = field := Except.ok.inj hfield
      obtain ⟨numeric, hf, h⟩ := Result.bind_eq_ok h
      have hnumeric : plan.hasNumericField r = numeric := by
        rw [hasNumericField, hfields, hfound]
        simp only [hf]
      rw [policyOf, hnumeric]
      cases numeric with
      | false =>
        obtain rfl := Except.ok.inj h
        simp
      | true =>
        by_cases hnever : plan.style.policy = .never
        · simp only [hnever] at h
          obtain rfl := Except.ok.inj h
          rw [if_pos ⟨rfl, hnever⟩]
        · simp only [beq_eq_false_iff_ne.mpr hnever] at h
          obtain rfl := Except.ok.inj h
          rw [if_neg fun hboth => hnever hboth.2]

/-- A field that is not numeric changes nothing. -/
theorem eq_self_of_forField {plan' : FormatPlan} {path : Path} {field : Option Field}
    (hfield : plan.fieldOf r path = .ok field) (hnumeric : plan.hasNumericField r = false)
    (h : plan.forField field = .ok plan') : plan' = plan := by
  have hpolicy := policy_of_forField hfield h
  have hsame : plan.policyOf r = plan.style.policy := by
    rw [policyOf, hnumeric, if_neg fun hboth => Bool.false_ne_true hboth.1]
  obtain ⟨policy, rfl⟩ := eq_of_forField h
  obtain rfl : policy = plan.style.policy := hpolicy.trans hsame
  rfl

end FormatPlan

/-- A step that binds nothing is taken before the others. -/
theorem Write.lift_bind {α β : Type} (x : Result α) (f : α → Write β) (bindings : Bindings) :
    ((liftM x : Write α) >>= f) bindings = x >>= fun a => f a bindings := by
  cases x <;> rfl

theorem Write.get_bind {α : Type} (f : Bindings → Write α) (bindings : Bindings) :
    ((get : Write Bindings) >>= f) bindings = f bindings bindings := rfl

/-- What follows a step that ends well starts where it ends. -/
theorem Write.bind_of_ok {α β : Type} {x : Write α} {a : α} {bindings bindings' : Bindings}
    (h : x bindings = .ok (a, bindings')) (f : α → Write β) :
    (x >>= f) bindings = f a bindings' := by
  show (x bindings >>= fun p => f p.1 p.2) = _
  rw [h]
  rfl

namespace Writer
variable {α : Type} {w : Writer α} {r : Rule}

theorem canExpress_of_none (h : r.operator? = none) : w.canExpress r = false := by
  rw [canExpress, h]

theorem canExpress_of_supports {op : Operator} (h : r.operator? = some op)
    (hw : w.dialect.supports op = true) : w.canExpress r = true := by
  rw [canExpress, h]
  exact hw

end Writer

/-- A rule that no function of the caller writes is written by the dialect, under
the policy of its field. -/
theorem Writer.writeRule_apply {α : Type} (w : Writer α) {plan : FormatPlan}
    (h : plan.ruleHook = .absent) (path : Path) (r : Rule) (bindings : Bindings) :
    w.writeRule plan path r bindings = (do
      let field ← plan.fieldOf r path
      if w.canExpress r then
        let plan ← plan.forField field
        w.write plan r (some ⟨path, bindings.count, field⟩) bindings
      else
        .error (.unsupportedOperator r.operator (.text w.dialect.name) (some path))) := by
  unfold writeRule
  rw [Write.lift_bind]
  refine Result.bind_congr fun field _ => ?_
  cases w.canExpress r with
  | false => rfl
  | true =>
    simp only [Bool.not_true, Bool.false_eq_true, if_false, if_true, Write.get_bind,
      Write.lift_bind]
    refine Result.bind_congr fun plan' hplan => ?_
    obtain ⟨policy, rfl⟩ := FormatPlan.eq_of_forField hplan
    simp only [h]

end RuleTree
