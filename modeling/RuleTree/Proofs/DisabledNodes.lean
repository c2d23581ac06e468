import RuleTree.Proofs.Judgements
import RuleTree.Query

/-! # What disabled nodes hide

Two trees agree if they are the same but for what is inside nodes that are disabled in
both (`Node.Agrees`).  Neither a validator nor a writer looks into such a node, so both do
the same with either tree, down to the bindings and to the paths of errors, and a call
gives the same result for both (`Query.format_of_agrees`).
-/
namespace RuleTree

/-- Two trees are the same except inside nodes that are disabled in both: rules are any
there, and so are the combinator, the flags and the children of groups. -/
inductive Node.Agrees : Node → Node → Prop where
  | rule (r : Rule) : Agrees (.rule r) (.rule r)
  | disabledRule {r r' : Rule} :
      r.disabled = true → r'.disabled = true → Agrees (.rule r) (.rule r')
  | group {combinator : Value} {flags : GroupFlags} {children children' : List Node} :
      List.Forall₂ Agrees children children' →
        Agrees (.group combinator flags children) (.group combinator flags children')
  | disabledGroup {combinator combinator' : Value} {flags flags' : GroupFlags}
      {children children' : List Node} : flags.disabled = true → flags'.disabled = true →
        Agrees (.group combinator flags children) (.group combinator' flags' children')

namespace Node.Agrees
variable {t t' : Node}

theorem isDisabled_eq (h : t.Agrees t') : t.isDisabled = t'.isDisabled := by
  cases h with
  | rule | group => rfl
  | disabledRule hr hr' => exact hr.trans hr'.symm
  | disabledGroup hflags hflags' => exact hflags.trans hflags'.symm

theorem isCombinator_eq (h : t.Agrees t') : t.isCombinator = false ∧ t'.isCombinator = false := by
  cases h <;> exact ⟨rfl, rfl⟩

theorem asGroup (h : t.Agrees t') : t.asGroup.Agrees t'.asGroup := by
  cases h with
  | rule r => exact .group (.cons (.rule r) .nil)
  | disabledRule hr hr' => exact .group (.cons (.disabledRule hr hr') .nil)
  | group hchildren => exact .group hchildren
  | disabledGroup hflags hflags' => exact .disabledGroup hflags hflags'

end Node.Agrees

/-- A standard tree is written as the group that it is, or that its one rule is in. -/
theorem Node.IsStandard.standardRoot_eq_asGroup {t : Node} (h : t.IsStandard) :
    t.standardRoot = .ok t.asGroup := by
  cases h with
  | rule r => exact standardRoot_rule r
  | group hchildren => exact (IsStandard.group hchildren).standardRoot_eq

/-! ### Validators -/

namespace Validator
variable {v : Validator}

theorem validateMembers_of_agrees {path : Path} {nodes nodes' : List Node}
    (h : List.Forall₂ Node.Agrees nodes nodes')
    (ih : ∀ node ∈ nodes, ∀ {node' : Node}, node.Agrees node' → ∀ path,
      v.validateNode path node = v.validateNode path node') (position : Nat) (members : Members) :
    v.validateMembers path position members nodes =
      v.validateMembers path position members nodes' := by
  induction h generalizing position members with
  | nil => rfl
  | @cons node node' nodes nodes' hnode _ ihn =>
    obtain ⟨ihnode, ihrest⟩ := List.forall_mem_cons.mp ih
    obtain ⟨hmember, hmember'⟩ := hnode.isCombinator_eq
    rw [validateMembers_cons, validateMembers_cons, hmember, hmember', hnode.isDisabled_eq,
      ihnode hnode]
    exact Result.bind_congr fun judged _ => ihn ihrest _ _

/-- Trees that agree are judged alike. -/
theorem validateNode_of_agrees {t t' : Node} (h : t.Agrees t') (path : Path) :
    v.validateNode path t = v.validateNode path t' := by
  induction t using Node.induct_members generalizing t' path with
  | step t ih =>
    cases h with
    | rule => rfl
    | disabledRule hr hr' =>
      rw [validateNode_of_isDisabled (t := .rule _) path hr,
        validateNode_of_isDisabled (t := .rule _) path hr']
    | disabledGroup hflags hflags' =>
      rw [validateNode_of_isDisabled (t := .group _ _ _) path hflags,
        validateNode_of_isDisabled (t := .group _ _ _) path hflags']
    | group hchildren =>
      rw [validateNode, validateNode, validateMembers_of_agrees hchildren ih]

end Validator

/-! ### Writers -/

namespace Writer
variable {α : Type} {w : Writer α} {plan : FormatPlan} {judgement : Judgement}

theorem writeMembers_of_agrees {path : Path} {nodes nodes' : List Node}
    (h : List.Forall₂ Node.Agrees nodes nodes')
    (ih : ∀ node ∈ nodes, ∀ {node' : Node}, node.Agrees node' → ∀ path,
      w.writeNode plan judgement path node = w.writeNode plan judgement path node')
    (position : Nat) :
    w.writeMembers plan judgement path position nodes =
      w.writeMembers plan judgement path position nodes' := by
  induction h generalizing position with
  | nil => rfl
  | @cons node node' nodes nodes' hnode _ ihn =>
    obtain ⟨ihnode, ihrest⟩ := List.forall_mem_cons.mp ih
    rw [writeMembers, writeMembers, ihnode hnode, ihn ihrest]

/-- Trees that agree are written alike. -/
theorem writeNode_of_agrees {t t' : Node} (h : t.Agrees t') (path : Path) :
    w.writeNode plan judgement path t = w.writeNode plan judgement path t' := by
  induction t using Node.induct_members generalizing t' path with
  | step t ih =>
    cases h with
    | rule => rfl
    | disabledRule hr hr' => rw [writeNode, writeNode, hr, hr']; rfl
    | disabledGroup hflags hflags' => rw [writeNode, writeNode, hflags, hflags']; rfl
    | group hchildren =>
      rw [writeNode, writeNode, writeMembers_of_agrees hchildren ih]

/-- Standard trees that agree are run alike, validated or not. -/
theorem run_of_agrees (w : Writer α) (plan : FormatPlan) {t t' : Node} (ht : t.IsStandard)
    (ht' : t'.IsStandard) (h : t.Agrees t') : w.run plan t = w.run plan t' := by
  cases hvalidate : plan.validate with
  | false =>
    rw [w.run_of_not_validate t hvalidate, w.run_of_not_validate t' hvalidate,
      ht.standardRoot_eq_asGroup, ht'.standardRoot_eq_asGroup, Result.ok_bind, Result.ok_bind]
    exact congrFun (writeNode_of_agrees h.asGroup []) {}
  | true =>
    rw [w.run_of_validate t hvalidate, w.run_of_validate t' hvalidate,
      ht.standardRoot_eq_asGroup, ht'.standardRoot_eq_asGroup, Result.ok_bind, Result.ok_bind]
    refine Result.bind_congr fun validator _ => ?_
    rw [Validator.validate, Validator.validate, Validator.validateNode_of_agrees h.asGroup]
    exact Result.bind_congr fun judgement _ => congrFun (writeNode_of_agrees h.asGroup []) {}

end Writer

/-! ### Calls -/

namespace Query

/-- Trees that agree are the same in every dialect. -/
theorem write_of_agrees (d : Dialect) (plan : FormatPlan) {t t' : Node} (ht : t.IsStandard)
    (ht' : t'.IsStandard) (h : t.Agrees t') : write d plan t = write d plan t' := by
  have hrun {α : Type} (w : Writer α) (plan : FormatPlan) : w.run plan t = w.run plan t' :=
    w.run_of_agrees plan ht ht' h
  cases d <;> simp only [write, Sql.plain, Sql.bound, Mongo.format, JsonLogic.format,
    Language.format, Prose.format, Qdrant.filter?, Qdrant.filterBy, Writer.within_none,
    hrun]

/-- **Disabled nodes.**  Whatever the options are, but for the exchange of trees, a call
gives the same output or the same error for standard trees that differ only inside nodes
that are disabled in both. -/
theorem format_of_agrees {o : FormatOptions} {t t' : Node}
    (hformat : ∀ plan, o.resolve = .ok plan → ∃ d, plan.style.format = .dialect d)
    (ht : t.IsStandard) (ht' : t'.IsStandard) (h : t.Agrees t') : format o t = format o t' := by
  cases hplan : o.resolve with
  | error e => rw [format, format, hplan]; rfl
  | ok plan =>
    obtain ⟨d, hd⟩ := hformat plan hplan
    rw [format_eq_write hplan hd ht.isTree, format_eq_write hplan hd ht'.isTree]
    exact write_of_agrees d plan ht ht' h

/-- A condition on a field, with a disabled rule before it and a disabled group behind. -/
def hidingSpecimen (hidden : Rule) (combinator : Value) (children : List Node) : Node :=
  .group (.text "or") {}
    [.rule { hidden with disabled := true }, .rule (.of "a" .isIn (.list [.int 1, .int 2])),
      .group combinator { disabled := true } children]

/-- What is disabled could be written. -/
def soundSpecimen : Node := hidingSpecimen (.of "a" .eq (.int 0)) (.text "and") []

/-- Nothing of what is disabled could be. -/
def unsoundSpecimen : Node :=
  hidingSpecimen { field := .null, operator := .null } (.text "xor")
    [.rule { field := .text "a", operator := .text "is" }]

theorem format_of_agrees_specimen :
    soundSpecimen.IsStandard ∧ unsoundSpecimen.IsStandard ∧ soundSpecimen.Agrees unsoundSpecimen ∧
      format { format := .text "parameterized_named", validate := .bool true } soundSpecimen =
        format { format := .text "parameterized_named", validate := .bool true }
          unsoundSpecimen := by
  have hstandard (hidden : Rule) (combinator : Value) (children : List Node)
      (hchildren : ∀ child ∈ children, child.IsStandard) :
      (hidingSpecimen hidden combinator children).IsStandard := by
    refine .group ?_
    simp only [List.forall_mem_cons]
    exact ⟨.rule _, .rule _, .group hchildren, nofun⟩
  have hsound : soundSpecimen.IsStandard := hstandard _ _ _ nofun
  have hunsound : unsoundSpecimen.IsStandard := hstandard _ _ _ (by simpa using .rule _)
  have hagrees : soundSpecimen.Agrees unsoundSpecimen :=
    .group (.cons (.disabledRule rfl rfl) (.cons (.rule _) (.cons (.disabledGroup rfl rfl) .nil)))
  refine ⟨hsound, hunsound, hagrees,
    format_of_agrees (fun plan hplan => ?_) hsound hunsound hagrees⟩
  obtain rfl := Except.ok.inj hplan
  exact ⟨.parameterizedNamed, rfl⟩

end Query
end RuleTree
