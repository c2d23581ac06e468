import RuleTree.Proofs.Lockstep

/-! # What is said of a tree

A tree says what its rules and groups that are not left out say: `Node.said` goes
through a tree as a writer does, and leaves out what is disabled, rules that say
nothing, and groups in which nothing is said.  A writer speaks for such a reading if
its outputs for rules say what the rules say, and joined outputs what the group of
what they say does (`Writer.Speaks`).  It then does so for every tree
(`Writer.Speaks.run`).
-/
namespace RuleTree

namespace Node
variable {β : Type} (rule : Rule → Option β) (join : Value → Bool → List β → β)

mutual
/-- What a tree says, given what rules say and what a group makes of what is said in
it; none where nothing is said. -/
def said : Node → Option β
  | .rule r => if r.disabled then none else rule r
  | .group combinator flags children =>
    if flags.disabled then none
    else match saidAll children with
      | [] => none
      | parts => some (join combinator flags.negated parts)
  | _ => none

/-- What trees in a row say. -/
def saidAll : List Node → List β
  | [] => []
  | node :: rest => (said node).toList ++ saidAll rest
end

variable {rule join}

theorem saidAll_eq_filterMap (nodes : List Node) :
    saidAll rule join nodes = nodes.filterMap (said rule join) := by
  induction nodes with
  | nil => rfl
  | cons node rest ih =>
    rw [saidAll, ih, List.filterMap_cons]
    cases said rule join node <;> rfl

theorem said_group (combinator : Value) (flags : GroupFlags) (children : List Node) :
    said rule join (.group combinator flags children) =
      if flags.disabled then none
      else match children.filterMap (said rule join) with
        | [] => none
        | parts => some (join combinator flags.negated parts) := by
  rw [said, saidAll_eq_filterMap]

/-- A tree as the group that is written of it. -/
def asGroup : Node → Node
  | .rule r => ofChildren "and" [.rule r]
  | t => t

end Node

namespace Writer
variable {α β : Type}

/-- A writer whose outputs say what a tree does. -/
structure Speaks (w : Writer α) (plan : FormatPlan) (Says : α → β → Prop)
    (rule : Rule → Option β) (join : Value → Bool → List β → β) : Prop where
  /-- The output of a rule is left out exactly where the rule says nothing. -/
  rule {r : Rule} {path : Path} {s s' : Bindings} {out : α} :
    w.writeRule plan path r s = .ok (out, s') →
      (w.isEmpty out = true ∧ rule r = none) ∨
        (w.isEmpty out = false ∧ ∃ b, rule r = some b ∧ Says out b)
  /-- Outputs that say something are joined to one that does. -/
  join {outs : List α} {bs : List β} {combinator : Value} {negated isRoot : Bool} {out : α} :
    List.Forall₂ Says outs bs → outs ≠ [] →
    w.combine combinator negated isRoot outs = .ok out →
      w.isEmpty out = false ∧ Says out (join combinator negated bs)

/-- A step after another ends well only if both do. -/
theorem bind_apply_eq_ok {A B : Type} {x : Write A} {f : A → Write B} {s s'' : Bindings} {b : B}
    (h : (x >>= f) s = .ok (b, s'')) : ∃ a s', x s = .ok (a, s') ∧ f a s' = .ok (b, s'') := by
  obtain ⟨⟨a, s'⟩, hx, hf⟩ := Result.bind_eq_ok (x := x s) h
  exact ⟨a, s', hx, hf⟩

/-- A step without bindings ends well only if its result does. -/
theorem lift_apply_eq_ok {A : Type} {x : Result A} {s s' : Bindings} {a : A}
    (h : (liftM x : Write A) s = .ok (a, s')) : x = .ok a ∧ s' = s := by
  cases x with
  | error => cases h
  | ok => cases h; exact ⟨rfl, rfl⟩

namespace Speaks
variable {w : Writer α} {plan : FormatPlan} {Says : α → β → Prop} {rule : Rule → Option β}
  {join : Value → Bool → List β → β} (h : w.Speaks plan Says rule join)
include h

omit h in
/-- Members that say what they should do so in a row. -/
theorem writeMembers {path : Path} {nodes : List Node}
    (ih : ∀ node ∈ nodes, ∀ {path s s' output}, w.writeNode plan none path node s =
      .ok (output, s') → Option.Rel Says output (node.said rule join))
    {position : Nat} {s s' : Bindings} {outs : List α}
    (hwrite : w.writeMembers plan none path position nodes s = .ok (outs, s')) :
    List.Forall₂ Says outs (Node.saidAll rule join nodes) := by
  induction nodes generalizing position s s' outs with
  | nil =>
    rw [Writer.writeMembers] at hwrite
    cases hwrite
    exact .nil
  | cons node nodes ihn =>
    obtain ⟨hnode, hrest⟩ := List.forall_mem_cons.mp ih
    rw [Writer.writeMembers] at hwrite
    obtain ⟨output, s₁, hfirst, hwrite⟩ := bind_apply_eq_ok hwrite
    obtain ⟨rest, s₂, hothers, hwrite⟩ := bind_apply_eq_ok hwrite
    cases hwrite
    rw [Node.saidAll]
    have hsaid : Option.Rel Says output (node.said rule join) := hnode hfirst
    have hsaidAll : List.Forall₂ Says rest (Node.saidAll rule join nodes) := ihn hrest hothers
    generalize node.said rule join = b at hsaid
    cases hsaid with
    | none => exact hsaidAll
    | some hsays => exact .cons hsays hsaidAll

/-- **Outputs.**  What is written of a tree says what the tree says, and nothing is
written where nothing is said. -/
theorem writeNode {t : Node} {path : Path} {s s' : Bindings} {output : Option α}
    (hwrite : w.writeNode plan none path t s = .ok (output, s')) :
    Option.Rel Says output (t.said rule join) := by
  induction t using Node.induct generalizing path s s' output with
  | bare | interleaved => cases hwrite
  | rule r =>
    unfold Writer.writeNode at hwrite
    rw [Node.said]
    cases hdisabled : r.disabled with
    | true =>
      rw [hdisabled] at hwrite
      cases hwrite
      exact .none
    | false =>
      simp only [hdisabled, Judgement.passes, Bool.not_true, Bool.or_false, Bool.false_eq_true,
        if_false] at hwrite
      obtain ⟨out, s₁, hrule, hwrite⟩ := bind_apply_eq_ok hwrite
      cases hwrite
      rcases h.rule hrule with ⟨hempty, hsaid⟩ | ⟨hempty, b, hsaid, hsays⟩
      · simp only [hempty, hsaid, if_true]
        exact .none
      · simp only [hempty, hsaid]
        exact .some hsays
  | group combinator flags children ih =>
    unfold Writer.writeNode at hwrite
    rw [Node.said]
    cases hdisabled : flags.disabled with
    | true =>
      rw [hdisabled] at hwrite
      cases hwrite
      exact .none
    | false =>
      simp only [hdisabled, Judgement.passes, Bool.not_true, Bool.or_false, Bool.false_eq_true,
        if_false] at hwrite
      obtain ⟨outs, s₁, hmembers, hwrite⟩ := bind_apply_eq_ok hwrite
      have hsaid : List.Forall₂ Says outs (Node.saidAll rule join children) :=
        writeMembers ih hmembers
      generalize Node.saidAll rule join children = bs at hsaid
      cases hsaid with
      | nil =>
        cases hwrite
        exact .none
      | cons hfirst hrest =>
        obtain ⟨out, s₂, hcombine, hwrite⟩ := bind_apply_eq_ok hwrite
        cases hwrite
        obtain ⟨hempty, hsays⟩ :=
          h.join (.cons hfirst hrest) (List.cons_ne_nil _ _) (lift_apply_eq_ok hcombine).1
        simp only [hempty]
        exact .some hsays

/-- What is written of a standard query says what the query says. -/
theorem run {t : Node} (ht : t.IsStandard) (hvalidate : plan.validate = false)
    {output : Option α} {bindings : Bindings} (hwrite : w.run plan t = .ok (output, bindings)) :
    Option.Rel Says output (t.asGroup.said rule join) := by
  unfold Writer.run at hwrite
  cases ht with
  | rule r =>
    rw [hvalidate] at hwrite
    exact h.writeNode hwrite
  | @group combinator flags children hchildren =>
    have hstandard : Node.toStandard (.group combinator flags children) =
        .ok (.group combinator flags children) :=
      (Node.IsStandard.group hchildren).standardMember_eq
    simp only [hvalidate, hstandard, Bool.false_eq_true, if_false] at hwrite
    exact h.writeNode hwrite

end Speaks
end Writer
end RuleTree
