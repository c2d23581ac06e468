import RuleTree.Proofs.Endings
import RuleTree.Proofs.Policies
import RuleTree.Proofs.SearchFilters

/-! # What writers refuse

Two errors refuse a part of a query: one a field that is not configured, the other an
operator or a combinator that a dialect cannot write.  The rest of what can go wrong in
a call refuses neither, and a rule on a configured field whose operator is one of the
eighteen fails in no dialect for a name that is not an operator's
(`Writer.Obliging`).  So it is with trees in which such rules alone are written
(`Writer.Obliging.ends_writeNode`): what is refused beyond that is a combinator.
-/
namespace RuleTree

/-- Whether an error refuses no field, and operators and combinators of some kind only. -/
def Error.RefusesOnly (Q : Value → Prop) : Error → Prop
  | .unknownField _ _ => False
  | .unsupportedOperator operator _ _ => Q operator
  | _ => True

theorem Error.RefusesOnly.mono {Q R : Value → Prop} (h : ∀ v, Q v → R v) {e : Error}
    (he : e.RefusesOnly Q) : e.RefusesOnly R := by
  cases e with
  | unsupportedOperator operator => exact h operator he
  | unknownField => exact he
  | _ => trivial

section
variable {Q : Value → Prop}

/-- A step that refuses no field, and operators and combinators of some kind only. -/
abbrev Result.RefusesOnly {α : Type} (Q : Value → Prop) (x : Result α) : Prop :=
  x.FailsOnly (Error.RefusesOnly Q)

/-! ### Values and options -/

namespace Value

theorem refusesOnly_requireText (v : Value) : v.requireText.RefusesOnly Q := by
  cases v <;> trivial

theorem refusesOnly_requireKey (v : Value) : v.requireKey.RefusesOnly Q := by
  cases v <;> trivial

theorem refusesOnly_elements (v : Value) : v.elements.RefusesOnly Q := by
  cases v <;> trivial

end Value

namespace Field

theorem refusesOnly_lowerAttribute (v : Value) : (lowerAttribute v).RefusesOnly Q := by
  unfold lowerAttribute
  split
  · exact v.refusesOnly_requireText.bind fun _ _ => trivial
  · trivial

theorem refusesOnly_isNumeric (f : Field) : f.isNumeric.RefusesOnly Q := by
  refine (refusesOnly_lowerAttribute _).bind fun datatype _ => ?_
  split
  · trivial
  · exact (refusesOnly_lowerAttribute _).bind fun _ _ => trivial

theorem refusesOnly_allows (f : Field) (operator : String) : (f.allows operator).RefusesOnly Q := by
  unfold allows
  split
  · trivial
  · refine (Value.refusesOnly_elements _).bind fun items _ => ?_
    refine (Result.ends_mapM (R := fun _ => True) fun v _ => ?_).bind fun _ _ => trivial
    exact v.refusesOnly_requireText.bind fun _ _ => trivial

end Field

namespace FieldTable

theorem refusesOnly_find? (table : FieldTable) (name : Value) : (table.find? name).RefusesOnly Q :=
  name.refusesOnly_requireKey.bind fun _ _ => trivial

end FieldTable

namespace FormatOptions

end FormatOptions

/-- What has no root is a malformed tree. -/
theorem Node.refusesOnly_standardRoot (t : Node) : t.standardRoot.RefusesOnly Q := by
  cases hroot : t.standardRoot with
  | ok root => trivial
  | error e =>
    obtain ⟨fault, rfl⟩ : ∃ fault, e = .invalidTree fault := by
      cases t with
      | rule r => cases hroot
      | bare v => exact ⟨_, (Except.error.inj hroot).symm⟩
      | group combinator flags children =>
        exact standardMember_eq_error (show standardMember (.group combinator flags children) = _ from hroot)
      | interleaved flags items =>
        exact standardMember_eq_error (show standardMember (.interleaved flags items) = _ from hroot)
    trivial

/-! ### Values of rules -/

/-- The name of an operator, whatever its case and outer blanks. -/
def Operator.IsName (v : Value) : Prop := (Operator.ofValue? v).isSome

namespace FormatPlan

/-- Values are written by the dialect, and the names of parameters refuse nothing. -/
structure IsPlain (plan : FormatPlan) : Prop where
  valueHook : plan.valueHook = .absent
  names : ∀ names, plan.names = .given names → ∀ field asked,
    (names field asked).RefusesOnly Operator.IsName

theorem refusesOnly_forField (plan : FormatPlan) (field : Option Field) :
    (plan.forField field).RefusesOnly Q := by
  cases field with
  | none => trivial
  | some f =>
    refine f.refusesOnly_isNumeric.bind fun numeric _ => ?_
    split <;> trivial

/-- A plan on which rules on the field of a rule may be written. -/
def Knows (plan : FormatPlan) (r : Rule) : Prop :=
  plan.style.fields.isEmpty = true ∨ plan.style.fields.find? r.field ≠ .ok none

end FormatPlan

/-! ### Tests of filters -/

namespace Qdrant

end Qdrant

/-! ### Rules with an operator -/

namespace Operator

end Operator

namespace Sql
variable {plan : FormatPlan} (hplan : plan.IsPlain)
include hplan

end Sql

section
variable {plan : FormatPlan} (hplan : plan.IsPlain) {r : Rule} {op : Operator}
  (hop : r.operator? = some op)
include hplan hop

end

/-! ### Writers -/

namespace Writer
variable {α : Type}

/-- A writer that of a rule with an operator refuses the operator alone, and of a group
the combinator alone, as long as the outputs that it joins are its own. -/
structure Obliging (w : Writer α) (Own : α → Prop) : Prop where
  write {plan : FormatPlan} {r : Rule} {op : Operator} : plan.IsPlain → r.operator? = some op →
    ∀ context s, Result.Ends (Error.RefusesOnly Operator.IsName)
      (fun output => w.isEmpty output.1 = false → Own output.1) (w.write plan r context s)
  combine {outs : List α} : (∀ out ∈ outs, Own out) → outs ≠ [] →
    ∀ combinator negated isRoot, Result.Ends (Error.RefusesOnly (· = combinator))
      (fun out => w.isEmpty out = false → Own out) (w.combine combinator negated isRoot outs)

namespace Obliging
variable {w : Writer α} {Own : α → Prop} (h : w.Obliging Own) {plan : FormatPlan}
  (hplan : plan.IsPlain) (hhook : plan.ruleHook = .absent)
include h hplan hhook

/-- Of a rule with an operator, on a field that may be used, the operator alone is refused. -/
theorem ends_writeRule {r : Rule} {op : Operator} (hop : r.operator? = some op)
    (hfield : plan.Knows r) (path : Path) (s : Bindings) :
    Result.Ends (Error.RefusesOnly Operator.IsName)
      (fun output => w.isEmpty output.1 = false → Own output.1) (w.writeRule plan path r s) := by
  rw [w.writeRule_apply hhook]
  have hfieldOf : (plan.fieldOf r path).RefusesOnly Operator.IsName := by
    unfold FormatPlan.fieldOf
    cases hempty : plan.style.fields.isEmpty with
    | true => trivial
    | false =>
      have hsome := hfield.resolve_left (by simp [hempty])
      cases hfind : plan.style.fields.find? r.field with
      | error e =>
        have hfound := plan.style.fields.refusesOnly_find? (Q := Operator.IsName) r.field
        rw [hfind] at hfound
        exact hfound
      | ok found =>
        cases found with
        | none => exact absurd hfind hsome
        | some f => trivial
  refine hfieldOf.bind fun field _ => ?_
  split
  · refine Result.Ends.bind (P := FormatPlan.IsPlain) ?_ fun plan' hplan' => ?_
    · cases hplan' : plan.forField field with
      | error e =>
        have herror := plan.refusesOnly_forField (Q := Operator.IsName) field
        rw [hplan'] at herror
        exact herror
      | ok plan' =>
        obtain ⟨policy, rfl⟩ := FormatPlan.eq_of_forField hplan'
        exact ⟨hplan.valueHook, hplan.names⟩
    · exact h.write hplan' hop _ s
  · exact Option.isSome_of_eq_some hop

/-- **Refusals.**  Of a tree in which rules that pass have an operator, on a field that
may be used, names of operators and combinators of the tree alone are refused. -/
theorem ends_writeNode {judgement : Judgement} {t : Node} (ht : t.IsStandard) {path : Path}
    (hrules : ∀ e ∈ t.liveFrom path, judgement.passes e.1 = true →
      (∃ op, e.2.operator? = some op) ∧ plan.Knows e.2) (s : Bindings) :
    Result.Ends (Error.RefusesOnly fun v => Operator.IsName v ∨ v ∈ t.combinators)
      (fun output => ∀ out ∈ output.1, Own out) (w.writeNode plan judgement path t s) := by
  refine Writer.ends_writeNode ht (fun combinator hmem outs houts hne negated isRoot => ?_)
    (fun e he hpasses s => ?_) s
  · refine (h.combine houts hne combinator negated isRoot).mono (fun e he => ?_) fun _ hout => hout
    exact he.mono fun v hv => Or.inr (hv ▸ hmem)
  · obtain ⟨⟨op, hop⟩, hfield⟩ := hrules e he hpasses
    refine (h.ends_writeRule hplan hhook hop hfield e.1 s).mono (fun e he => ?_) fun _ hout => hout
    exact he.mono fun v hv => Or.inl hv

end Obliging

end Writer

/-! ### Every dialect -/

section
variable {combinator : Value} {parts : List Value}

end

namespace Sql

end Sql

namespace Qdrant

end Qdrant
end
end RuleTree
