import RuleTree.Proofs.LiveRules
import RuleTree.Proofs.Runs

/-! # How writing ends

A step ends in a result with a property, or in an error with another (`Result.Ends`).
How a tree ends is decided by its live rules and by its combinators
(`Writer.ends_writeNode`): the errors are those of rules and of groups, whatever is
looked for in them.  What a dialect makes of one rule can go wrong in few places only,
which the lemmas on the dialects name.
-/
namespace RuleTree

namespace Result
variable {α β : Type} {E : Error → Prop} {P : α → Prop} {R : β → Prop}

/-- A step ends in a result with a property, or in an error with another. -/
def Ends (E : Error → Prop) (P : α → Prop) : Result α → Prop
  | .ok a => P a
  | .error e => E e

theorem ends_ok {a : α} (h : P a) : Ends E P (.ok a) := h

theorem ends_error {e : Error} (h : E e) : Ends E P (.error e) := h

/-- A step that has a result has one with the property. -/
theorem Ends.of_eq_ok {x : Result α} {a : α} (h : x.Ends E P) (ha : x = .ok a) : P a := by
  rwa [ha] at h

theorem Ends.bind {x : Result α} {f : α → Result β} (h : x.Ends E P)
    (hnext : ∀ a, P a → (f a).Ends E R) : (x >>= f).Ends E R := by
  cases x with
  | ok a => exact hnext a h
  | error e => exact h

theorem Ends.map {x : Result α} {f : α → β} (h : x.Ends E P) (hnext : ∀ a, P a → R (f a)) :
    Ends E R (x.map f) := by
  cases x with
  | ok a => exact hnext a h
  | error e => exact h

theorem Ends.mono {x : Result α} {E' : Error → Prop} {R : α → Prop} (h : x.Ends E P)
    (herror : ∀ e, E e → E' e) (hok : ∀ a, P a → R a) : x.Ends E' R := by
  cases x with
  | ok a => exact hok a h
  | error e => exact herror e h

theorem ends_mapM {f : α → Result β} {as : List α} (h : ∀ a ∈ as, (f a).Ends E R) :
    (as.mapM f).Ends E fun bs => ∀ b ∈ bs, R b := by
  induction as with
  | nil => simp [Ends, pure, Except.pure]
  | cons a as ih =>
    obtain ⟨hfirst, hrest⟩ := List.forall_mem_cons.mp h
    rw [List.mapM_cons]
    refine hfirst.bind fun b hb => (ih hrest).bind fun bs hbs => ?_
    exact List.forall_mem_cons.mpr ⟨hb, hbs⟩

/-- What goes through a list fails as its items do. -/
theorem ends_forM {f : α → Result PUnit} {as : List α}
    (h : ∀ a ∈ as, (f a).Ends E fun _ => True) : (as.forM f).Ends E fun _ => True := by
  induction as with
  | nil => trivial
  | cons a as ih =>
    obtain ⟨hfirst, hrest⟩ := List.forall_mem_cons.mp h
    exact hfirst.bind fun _ _ => ih hrest

/-- A step without errors has a result. -/
theorem Ends.exists_eq_ok {x : Result α} (h : x.Ends (fun _ => False) P) :
    ∃ a, x = .ok a ∧ P a := by
  cases x with
  | ok a => exact ⟨a, rfl, h⟩
  | error e => exact h.elim

end Result

/-! ### Trees -/

namespace Writer
variable {α A B : Type} {E : Error → Prop} {P : A → Prop}

theorem ends_bind_apply {x : Write A} {f : A → Write B} {s : Bindings} {R : B × Bindings → Prop}
    (h : Result.Ends E (fun output => P output.1) (x s))
    (hnext : ∀ a s', P a → Result.Ends E R (f a s')) : Result.Ends E R ((x >>= f) s) :=
  Result.Ends.bind (x := x s) h fun output houtput => hnext output.1 output.2 houtput

theorem ends_lift_apply {x : Result A} (h : x.Ends E P) (s : Bindings) :
    Result.Ends E (fun output => P output.1) ((liftM x : Write A) s) := by
  cases x with
  | ok a => exact h
  | error e => exact h

variable {w : Writer α} {plan : FormatPlan} {Own : α → Prop} {judgement : Judgement}

/-- Members that end in some way if their live rules are fine do so in a row. -/
theorem ends_writeMembers {Fine : Path × Rule → Prop} {path : Path} {nodes : List Node}
    (ih : ∀ node ∈ nodes, ∀ path, (∀ e ∈ node.liveFrom path, Fine e) → ∀ s,
      Result.Ends E (fun output => ∀ out ∈ output.1, Own out)
        (w.writeNode plan judgement path node s)) {position : Nat}
    (hrules : ∀ e ∈ Node.liveMembers path position nodes, Fine e) (s : Bindings) :
    Result.Ends E (fun output => ∀ out ∈ output.1, Own out)
      (w.writeMembers plan judgement path position nodes s) := by
  induction nodes generalizing position s with
  | nil =>
    rw [writeMembers]
    intro out hout
    cases hout
  | cons node nodes ihn =>
    obtain ⟨ihnode, ihrest⟩ := List.forall_mem_cons.mp ih
    rw [Node.liveMembers] at hrules
    obtain ⟨hnode, hrest⟩ := List.forall_mem_append.mp hrules
    rw [writeMembers]
    refine ends_bind_apply (P := fun output => ∀ out ∈ output, Own out) (ihnode _ hnode s)
      fun output s' houtput => ?_
    refine ends_bind_apply (P := fun outs => ∀ out ∈ outs, Own out) (ihn ihrest hrest s')
      fun outs s'' houts => ?_
    intro out hout
    rcases List.mem_append.mp hout with hout | hout
    · exact houtput out (by simpa using hout)
    · exact houts out hout

/-- **Trees.**  A standard tree ends as its rules and groups do: the rules that are
written, and the groups of what is the writer's own. -/
theorem ends_writeNode {t : Node} (ht : t.IsStandard) {path : Path}
    (hcombine : ∀ combinator ∈ t.combinators, ∀ outs, (∀ out ∈ outs, Own out) → outs ≠ [] →
      ∀ negated isRoot, Result.Ends E (fun out => w.isEmpty out = false → Own out)
        (w.combine combinator negated isRoot outs))
    (hrules : ∀ e ∈ t.liveFrom path, judgement.passes e.1 = true → ∀ s,
      Result.Ends E (fun output => w.isEmpty output.1 = false → Own output.1)
        (w.writeRule plan e.1 e.2 s)) (s : Bindings) :
    Result.Ends E (fun output => ∀ out ∈ output.1, Own out)
      (w.writeNode plan judgement path t s) := by
  have hkeep (out : α) (s : Bindings) (hout : w.isEmpty out = false → Own out) :
      Result.Ends E (fun output => ∀ out ∈ output.1, Own out)
        ((pure (if w.isEmpty out then none else some out) : Write (Option α)) s) := by
    cases hempty : w.isEmpty out with
    | true =>
      intro out hnone
      cases hnone
    | false =>
      intro out' hsome
      obtain rfl := Option.some.inj hsome
      exact hout hempty
  induction ht generalizing path s with
  | rule r =>
    unfold writeNode
    rw [Node.liveFrom] at hrules
    split
    · intro out hout
      cases hout
    · rename_i hlive
      obtain ⟨hdisabled, hpasses⟩ : r.disabled = false ∧ judgement.passes path = true := by
        simpa using hlive
      rw [hdisabled] at hrules
      have hrule := hrules (path, r) (by simp) hpasses s
      exact ends_bind_apply (P := fun out => w.isEmpty out = false → Own out) hrule
        fun out s' hout => hkeep out s' hout
  | @group combinator flags children hchildren ih =>
    unfold writeNode
    rw [Node.liveFrom] at hrules
    rw [Node.combinators_group] at hcombine
    obtain ⟨hhere, hbelow⟩ := List.forall_mem_cons.mp hcombine
    split
    · intro out hout
      cases hout
    · rename_i hlive
      obtain ⟨hdisabled, -⟩ : flags.disabled = false ∧ judgement.passes path = true := by
        simpa using hlive
      rw [hdisabled] at hrules
      have hmembers := ends_writeMembers (fun child hchild path hchildRules s =>
        ih child hchild (fun c hc => hbelow c (List.mem_flatMap.mpr ⟨child, hchild, hc⟩))
          hchildRules s) hrules s
      refine ends_bind_apply (P := fun outs => ∀ out ∈ outs, Own out) hmembers
        fun outs s' houts => ?_
      cases outs with
      | nil =>
        intro out hout
        cases hout
      | cons first rest =>
        have hjoined := hhere _ houts (List.cons_ne_nil _ _) flags.negated path.isEmpty
        exact ends_bind_apply (P := fun out => w.isEmpty out = false → Own out)
          (ends_lift_apply (P := fun out => w.isEmpty out = false → Own out) hjoined s')
          fun out s'' hout => hkeep out s'' hout

end Writer

/-! ### Rules -/

/-- A step in which nothing goes wrong but with errors of some kind. -/
abbrev Result.FailsOnly {α : Type} (E : Error → Prop) (x : Result α) : Prop :=
  x.Ends E fun _ => True

theorem FormatPlan.suppliedValue_of_absent {plan : FormatPlan} (h : plan.valueHook = .absent)
    (r : Rule) (operator : Operator) : plan.suppliedValue r operator = .ok none := by
  unfold suppliedValue
  rw [h]
  split <;> rfl

section
variable {E : Error → Prop}

namespace Sql

/-- Of the values of rules only the operator that joins texts can be wrong. -/
theorem failsOnly_valueText {style : Style} (hconcat : style.concat.requireText.FailsOnly E)
    (r : Rule) : (valueText r style).FailsOnly E := by
  have hjoin (parts : List String) : (concatenate style parts).FailsOnly E := by
    refine hconcat.bind fun concat _ => ?_
    cases isConcatFunction concat <;> trivial
  have hother (operator : Option Operator) (v : Value) :
      (otherFields style operator v).FailsOnly E := by
    unfold otherFields
    split
    · trivial
    · split
      · split <;> trivial
      split
      · split <;> trivial
      split
      · dsimp only
        split
        · exact hjoin _
        split
        · exact hjoin _
        · exact hjoin _
      · trivial
  unfold valueText
  split
  · exact hother _ _
  · split
    · trivial
    · split
      · trivial
      split
      · split <;> trivial
      split
      · split <;> trivial
      split
      · trivial
      · trivial

end Sql

variable {plan : FormatPlan} (hhook : plan.valueHook = .absent) {r : Rule}
include hhook

theorem Sql.failsOnly_ruleValue (hconcat : plan.style.concat.requireText.FailsOnly E) :
    (ruleValue plan r).FailsOnly E := by
  unfold ruleValue
  rw [hhook]
  exact (failsOnly_valueText hconcat r).map fun _ _ => trivial

variable {op : Operator} (hop : r.operator? = some op)
include hop

theorem Sql.failsOnly_plainRule (hconcat : plan.style.concat.requireText.FailsOnly E) :
    (plainRule plan r).FailsOnly E := by
  rw [plainRule, Rule.resolve_of_operator? hop, Result.ok_bind]
  dsimp only
  split
  · trivial
  · refine (failsOnly_ruleValue hhook hconcat).bind fun value _ => ?_
    split <;> trivial

theorem Sql.failsOnly_ruleSkeleton (hconcat : plan.style.concat.requireText.FailsOnly E)
    (hspell : (op.spellIn (.text plan.style.format.name)).FailsOnly E) :
    (ruleSkeleton plan r).FailsOnly E := by
  rw [ruleSkeleton, Rule.resolve_of_operator? hop, Result.ok_bind]
  refine hspell.bind fun spelling _ => ?_
  exact (failsOnly_ruleValue hhook hconcat).bind fun _ _ => trivial

/-- Of text matches between fields there is no document. -/
theorem Mongo.failsOnly_writeRule (hkey : r.field.requireKey.FailsOnly E)
    (hmatch : r.comparesFields = true → op.isTextMatch = true →
      E (.unsupportedValue (.textAgainstField r.field op.name))) :
    (writeRule plan r).FailsOnly E := by
  have hcompare (hfields : r.comparesFields = true) : (fieldComparison op r).FailsOnly E := by
    unfold fieldComparison
    dsimp only
    split
    · trivial
    split
    · split <;> trivial
    split
    · rename_i htext
      exact hmatch hfields htext
    · trivial
  have hcondition : (condition? plan op r).FailsOnly E := by
    unfold condition?
    split
    · trivial
    split
    · trivial
    · rw [FormatPlan.suppliedValue_of_absent hhook]
      trivial
  rw [writeRule, Language.ruleOperator, hop, Result.ok_bind]
  split
  · rename_i hfields
    exact hcompare hfields
  · refine hcondition.bind fun document _ => ?_
    cases document with
    | none => trivial
    | some document =>
      have hfield : (fieldKey r.field).FailsOnly E := hkey.bind fun _ _ => trivial
      exact hfield.bind fun _ _ => trivial

theorem JsonLogic.failsOnly_writeRule : (writeRule plan r).FailsOnly E := by
  rw [writeRule, Language.ruleOperator, hop, Result.ok_bind,
    FormatPlan.suppliedValue_of_absent hhook]
  trivial

theorem Language.failsOnly_writeRule (l : Language)
    (hspell : (op.spellIn (.text l.dialect.name)).FailsOnly E) :
    (l.writeRule plan r).FailsOnly E := by
  rw [writeRule, ruleOperator, hop, Result.ok_bind]
  refine hspell.bind fun spelling _ => ?_
  dsimp only
  split
  · trivial
  split
  · trivial
  · rw [FormatPlan.suppliedValue_of_absent hhook]
    trivial

/-- Sentences are made of labels, and of descriptions that are texts. -/
theorem Prose.failsOnly_writeRule {P : Value → Prop}
    (hlabel : (label plan.style.fields r.field).FailsOnly E)
    (hdescribe : ∀ v, (describe plan.style r v).Ends E P)
    (htexts : ∀ items, (∀ item ∈ items, P item) → (Value.texts items).FailsOnly E) :
    (writeRule plan r).FailsOnly E := by
  have hown (start : String) : (ownRule plan.style op start r).FailsOnly E := by
    unfold ownRule
    split
    · refine (Result.ends_mapM fun v _ => hdescribe v).bind fun items hitems => ?_
      split
      · trivial
      · exact (htexts _ hitems).bind fun _ _ => trivial
    split
    · split
      · trivial
      · refine (hdescribe _).bind fun low _ => ?_
        exact (hdescribe _).bind fun high _ => trivial
    · refine Result.Ends.bind (P := fun _ => True) ?_ fun _ _ => trivial
      unfold describeSingle
      split
      · trivial
      · exact (hdescribe _).map fun _ _ => trivial
  rw [writeRule, Language.ruleOperator, hop, Result.ok_bind]
  refine hlabel.bind fun name _ => ?_
  dsimp only
  split
  · trivial
  · rw [FormatPlan.suppliedValue_of_absent hhook]
    exact hown _

end
end RuleTree
