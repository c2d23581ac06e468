import RuleTree.Proofs.LiveRules
import RuleTree.Proofs.Runs

/-! # Calls of a caller's function for rules

A query with parameters by position may have its rules written by a function of the
caller, which is told the path of the rule and how many parameters the rules before it
bound, and answers with a text and a list of parameters.  The calls that are made of it
are one for each live rule, in the order of the walk, with the true number of parameters,
and the parameters of the query are those of the answers in a row
(`Query.calls_of_format`).

A run notes every call that it makes (`Bindings.called`), so that a rule for which the
function were called twice would stand there twice.  What the calls are good for is said by
`Query.Calls`: the output is the same for every function that answers these calls alike, and
a function that fails in one of them, but answers the ones before it alike, makes the whole
query fail as it does.
-/
namespace RuleTree

/-- A function for rules that answers with a text and a list of parameters. -/
def RuleHook.Binds (hook : RuleHook) : Prop :=
  ∀ r style context answer, hook r style context = .ok answer →
    ∃ sql params, answer = some (.list [.text sql, .list params])

namespace Query

/-- A call of a function for rules, and the text and the parameters of its answer. -/
structure Call extends RuleCall where
  sql : String
  params : List Value

namespace Call

/-- What a function answers to the call. -/
def ask (c : Call) (hook : RuleHook) : Result (Option Value) := hook c.rule c.style c.context

/-- The answer of the call. -/
def answer (c : Call) : Option Value := some (.list [.text c.sql, .list c.params])

/-- The bindings after the call. -/
def bind (c : Call) (s : Bindings) : Bindings :=
  { s with
    params := s.params ++ c.params, count := s.count + c.params.length,
    called := s.called ++ [c.toRuleCall] }

end Call

/-- The calls of a function for rules that the result of a run depends on, in order. -/
structure Calls (run : RuleHook → Result Output) (hook : RuleHook) (calls : List Call) : Prop where
  answered : ∀ c ∈ calls, c.ask hook = .ok c.answer
  /-- No other call is made. -/
  only {hook' : RuleHook} : (∀ c ∈ calls, c.ask hook' = c.ask hook) → run hook' = run hook
  /-- Each call is made, once those before it are answered. -/
  each {hook' : RuleHook} {before after : List Call} {c : Call} {e : Error} :
    hook'.Binds → calls = before ++ c :: after → (∀ b ∈ before, b.ask hook' = b.ask hook) →
      c.ask hook' = .error e → run hook' = .error e

end Query

namespace Sql
open Query

/-! ### One rule -/

/-- The plan under which a function of the caller writes the rules. -/
def givenPlan (plan : FormatPlan) (hook : RuleHook) : FormatPlan :=
  { plan with names := plan.names.orElse NameSource.perField, ruleHook := .given hook }

/-- The call for a rule after so many parameters. -/
def callOf (plan : FormatPlan) (path : Path) (r : Rule) (processed : Nat) : Result RuleCall := do
  let field ← plan.fieldOf r path
  if (boundWriter .parameterized).canExpress r then
    let plan ← plan.forField field
    return ⟨r, plan.style, path, processed, field⟩
  else .error (.unsupportedOperator r.operator (.text "parameterized") (some path))

/-- What becomes of the answer to a call. -/
def answered (plan : FormatPlan) (r : Rule) (context : RuleContext) : Option Value → Write Value
  | some v => adoptBound v
  | none => (boundWriter .parameterized).leave plan r (some context)

section
variable {plan : FormatPlan} {hook : RuleHook} {s s' : Bindings} {c : Call}

/-- A call that is answered is noted. -/
theorem call_bind (call : RuleCall) (f : Option Value → Write Value) (s : Bindings) :
    (hook.call call >>= f) s = (do
      let answer ← hook call.rule call.style call.context
      f answer { s with called := s.called ++ [call] }) :=
  Write.lift_bind (hook call.rule call.style call.context) f _

/-- A rule that the caller's function writes is written as it answers to one call. -/
theorem writeRule_given (path : Path) (r : Rule) (s : Bindings) :
    (boundWriter .parameterized).writeRule (givenPlan plan hook) path r s = (do
      let call ← callOf plan path r s.count
      let answer ← hook call.rule call.style call.context
      answered { givenPlan plan hook with style := call.style } r call.context answer
        { s with called := s.called ++ [call] }) := by
  unfold Writer.writeRule callOf
  rw [Write.lift_bind, bind_assoc]
  refine Result.bind_congr fun field _ => ?_
  cases (boundWriter .parameterized).canExpress r with
  | false => rfl
  | true =>
    simp only [Bool.not_true, Bool.false_eq_true, if_false, if_true, Write.get_bind,
      Write.lift_bind, bind_assoc]
    rw [FormatPlan.forField_map (f := (givenPlan · hook)) (fun _ => rfl)]
    cases hplan : plan.forField field with
    | error e => rfl
    | ok plan' =>
      obtain ⟨policy, rfl⟩ := FormatPlan.eq_of_forField hplan
      simp only [Except.map, Result.ok_bind, givenPlan, call_bind]
      refine Result.bind_congr fun answer _ => ?_
      cases answer <;> rfl

/-- A call is that for its rule after so many parameters. -/
def Fits (plan : FormatPlan) (s : Bindings) (c : Call) : Prop :=
  callOf plan c.context.path c.rule s.count = .ok c.toRuleCall

/-- A call is for the rule at the path, and told the number of parameters. -/
theorem eq_of_callOf {path : Path} {r : Rule} {processed : Nat} {call : RuleCall}
    (h : callOf plan path r processed = .ok call) :
    call.rule = r ∧ call.context.path = path ∧ call.context.processed = processed := by
  obtain ⟨field, -, h⟩ := Result.bind_eq_ok h
  split at h
  · obtain ⟨plan', -, h⟩ := Result.bind_eq_ok h
    obtain rfl := Except.ok.inj h
    exact ⟨rfl, rfl, rfl⟩
  · cases h

/-- A rule whose call is answered is written as the answer. -/
theorem writeRule_of_answer (hfits : Fits plan s c) (hanswer : c.ask hook = .ok c.answer) :
    (boundWriter .parameterized).writeRule (givenPlan plan hook) c.context.path c.rule s =
      .ok (.text c.sql, c.bind s) := by
  rw [Call.ask] at hanswer
  rw [writeRule_given, hfits, Result.ok_bind, hanswer]
  rfl

/-- A rule whose call fails is not written. -/
theorem writeRule_of_error (hfits : Fits plan s c) {e : Error} (herror : c.ask hook = .error e) :
    (boundWriter .parameterized).writeRule (givenPlan plan hook) c.context.path c.rule s =
      .error e := by
  rw [Call.ask] at herror
  rw [writeRule_given, hfits, Result.ok_bind, herror]
  rfl

/-- A rule that is written has been called. -/
theorem exists_call (hbinds : hook.Binds) {path : Path}
    {r : Rule} {out : Value}
    (hwrite :
      (boundWriter .parameterized).writeRule (givenPlan plan hook) path r s = .ok (out, s')) :
    ∃ c : Call, c.context.path = path ∧ c.rule = r ∧ Fits plan s c ∧ c.ask hook = .ok c.answer ∧
      out = .text c.sql ∧ s' = c.bind s := by
  rw [writeRule_given] at hwrite
  obtain ⟨call, hcall, hwrite⟩ := Result.bind_eq_ok hwrite
  obtain ⟨answer, hanswer, hwrite⟩ := Result.bind_eq_ok hwrite
  obtain ⟨sql, params, rfl⟩ := hbinds _ _ _ _ hanswer
  obtain ⟨rfl, rfl⟩ := Prod.mk.inj (Except.ok.inj hwrite)
  obtain ⟨rfl, rfl, -⟩ := eq_of_callOf hcall
  exact ⟨⟨call, sql, params⟩, rfl, rfl, hcall, hanswer, rfl, rfl⟩

/-! ### Rules one after another -/

/-- Calls one after another, from some bindings to others. -/
inductive Trace (plan : FormatPlan) : Bindings → List Call → Bindings → Prop where
  | nil (s : Bindings) : Trace plan s [] s
  | cons {s s' : Bindings} {c : Call} {calls : List Call} : Fits plan s c →
      Trace plan (c.bind s) calls s' → Trace plan s (c :: calls) s'

/-- The rules that are called, with their paths. -/
def called (calls : List Call) : List (Path × Rule) := calls.map fun c => (c.context.path, c.rule)

variable {calls before after : List Call}

theorem Trace.params_eq (h : Trace plan s calls s') :
    s'.params = s.params ++ calls.flatMap Call.params := by
  induction h with
  | nil s => simp
  | cons _ _ ih => rw [ih, List.flatMap_cons, Call.bind, List.append_assoc]

theorem Trace.count_eq (h : Trace plan s calls s') :
    s'.count = s.count + (calls.flatMap Call.params).length := by
  induction h with
  | nil s => simp
  | cons _ _ ih => rw [ih, List.flatMap_cons, List.length_append, Call.bind, Nat.add_assoc]

/-- The calls are noted one after another. -/
theorem Trace.called_eq (h : Trace plan s calls s') :
    s'.called = s.called ++ calls.map Call.toRuleCall := by
  induction h with
  | nil s => simp
  | cons _ _ ih => rw [ih, List.map_cons, Call.bind, List.append_assoc, List.singleton_append]

/-- Calls can be cut in two. -/
theorem Trace.split (h : Trace plan s (before ++ after) s') :
    ∃ s₁, Trace plan s before s₁ ∧ Trace plan s₁ after s' := by
  induction before generalizing s with
  | nil => exact ⟨s, .nil s, h⟩
  | cons b before ih =>
    cases h with
    | cons hfits hrest =>
      obtain ⟨s₁, hbefore, hafter⟩ := ih hrest
      exact ⟨s₁, .cons hfits hbefore, hafter⟩

/-- A call is told how many parameters the calls before it bound. -/
theorem Trace.processed_eq (h : Trace plan s (before ++ c :: after) s') :
    c.context.processed = s.count + (before.flatMap Call.params).length := by
  obtain ⟨s₁, hbefore, hafter⟩ := h.split
  cases hafter with
  | cons hfits _ => rw [(eq_of_callOf hfits).2.2, hbefore.count_eq, Int.natCast_add]

/-- Rules that are written one after another have been called so. -/
theorem exists_trace (hbinds : hook.Binds)
    {rules : List (Path × Rule)}
    (hwrite : (boundWriter .parameterized).writeRules (givenPlan plan hook) rules s = .ok s') :
    ∃ calls, Trace plan s calls s' ∧ called calls = rules ∧
      ∀ c ∈ calls, c.ask hook = .ok c.answer := by
  induction rules generalizing s with
  | nil =>
    obtain rfl := Except.ok.inj hwrite
    exact ⟨[], .nil s, rfl, by simp⟩
  | cons e rules ih =>
    obtain ⟨s₁, hfirst, hrest⟩ := Result.bind_eq_ok hwrite
    obtain ⟨⟨out, s₂⟩, hrule, rfl⟩ := Result.map_eq_ok hfirst
    obtain ⟨c, hpath, hr, hfits, hanswer, -, hs⟩ := exists_call hbinds hrule
    obtain ⟨calls, htrace, hcalled, hanswers⟩ := ih hrest
    refine ⟨c :: calls, .cons hfits (hs ▸ htrace), ?_, List.forall_mem_cons.mpr ⟨hanswer, hanswers⟩⟩
    rw [called, List.map_cons, ← called, hcalled, hpath, hr]

/-- Rules are written one after another if their calls are answered. -/
theorem Trace.writeRules_eq (htrace : Trace plan s calls s')
    (hanswers : ∀ c ∈ calls, c.ask hook = .ok c.answer) :
    (boundWriter .parameterized).writeRules (givenPlan plan hook) (called calls) s = .ok s' := by
  induction htrace with
  | nil s => rfl
  | @cons s s' c calls hfits _ ih =>
    obtain ⟨hanswer, hrest⟩ := List.forall_mem_cons.mp hanswers
    rw [called, List.map_cons, Writer.writeRules, List.foldlM_cons]
    rw [writeRule_of_answer hfits hanswer]
    exact ih hrest

/-- They fail where a call does. -/
theorem Trace.writeRules_eq_error (htrace : Trace plan s (before ++ c :: after) s')
    (hanswers : ∀ b ∈ before, b.ask hook = .ok b.answer)
    {e : Error} (herror : c.ask hook = .error e) :
    (boundWriter .parameterized).writeRules (givenPlan plan hook)
      (called (before ++ c :: after)) s = .error e := by
  obtain ⟨s₁, hbefore, hafter⟩ := htrace.split
  rw [called, List.map_append, ← called, ← called, Writer.writeRules_append,
    hbefore.writeRules_eq hanswers, Result.ok_bind]
  cases hafter with
  | cons hfits _ =>
    rw [called, List.map_cons, Writer.writeRules, List.foldlM_cons, writeRule_of_error hfits herror]
    rfl

/-- The parts that such rules are written as are joined. -/
theorem joins_given (plan : FormatPlan) (hbinds : hook.Binds) :
    (boundWriter .parameterized).Joins (givenPlan plan hook) (fun out => ∃ s, out = .text s)
      (fun _ => True) (fun _ => True) where
  rule _ hwrite := by
    obtain ⟨c, -, -, -, -, hout, -⟩ := exists_call hbinds hwrite
    exact ⟨c.sql, hout⟩
  combine := by
    intro outs combinator houts _ _ negated isRoot
    obtain ⟨s, hjoined⟩ := exists_joinGroup houts combinator negated
    exact ⟨.text s, hjoined, s, rfl⟩

/-- Functions that answer the calls alike have the rules written alike. -/
theorem Trace.alike (htrace : Trace plan s calls s') {hook' : RuleHook}
    (hanswers : ∀ c ∈ calls, c.ask hook = .ok c.answer)
    (hsame : ∀ c ∈ calls, c.ask hook' = c.ask hook) :
    (boundWriter .parameterized).Alike (givenPlan plan hook) (givenPlan plan hook')
      (called calls) s := by
  rintro rulesBefore e rulesAfter s₂ hcut hwrite
  obtain ⟨before, rest, rfl, rfl, hrest⟩ := List.map_eq_append_iff.mp hcut
  obtain ⟨c, after, rfl, rfl, rfl⟩ := List.map_eq_cons_iff.mp hrest
  obtain ⟨s₁, hbefore, hafter⟩ := htrace.split
  obtain ⟨hanswersBefore, hanswersAfter⟩ := List.forall_mem_append.mp hanswers
  have hstate : s₁ = s₂ :=
    Except.ok.inj ((hbefore.writeRules_eq hanswersBefore).symm.trans hwrite)
  subst hstate
  have hanswer := (List.forall_mem_cons.mp hanswersAfter).1
  have hanswer' : c.ask hook' = .ok c.answer :=
    (hsame c (List.mem_append_right _ List.mem_cons_self)).trans hanswer
  cases hafter with
  | cons hfits _ =>
    rw [writeRule_of_answer hfits hanswer, writeRule_of_answer hfits hanswer']

end
end Sql

/-! ### Queries -/

namespace Query
open Sql
variable {o : FormatOptions} {plan : FormatPlan} {hook : RuleHook} {t root : Node}

/-- Writing a query with such a function is writing its root, and giving the parameters
that are bound on the way. -/
theorem format_given (hplan : o.resolve = .ok plan)
    (hformat : plan.style.format = .dialect .parameterized) (hvalidate : plan.validate = false)
    (ht : t.IsTree) (hook : RuleHook) :
    format { o with ruleHook := .given hook } t = (do
      let root ← t.standardRoot
      let (output, bindings) ←
        (boundWriter .parameterized).writeNode (givenPlan plan hook) none [] root {}
      return .bound ⟨output.getD (plan.fallbackOr (.text always)), .list bindings.params⟩) := by
  have hresolve : ({ o with ruleHook := .given hook } : FormatOptions).resolve =
      .ok { plan with ruleHook := .given hook } := by
    rw [FormatOptions.resolve_with o o.validate (.given hook), hplan,
      ← (FormatOptions.plans_of_resolve hplan).validate]
    rfl
  have hvalidate' : (givenPlan plan hook).validate = false := hvalidate
  have hrun := Writer.run_of_not_validate (boundWriter .parameterized) t hvalidate'
  rw [format_eq_write hresolve hformat ht]
  show (bound .parameterized { plan with ruleHook := .given hook } t).map Output.bound = _
  have hbound : bound .parameterized { plan with ruleHook := .given hook } t = (do
      let (output, bindings) ← (boundWriter .parameterized).run (givenPlan plan hook) t
      return ⟨output.getD (plan.fallbackOr (.text always)), .list bindings.params⟩) := rfl
  rw [hbound, hrun, bind_assoc, Result.map_bind]
  refine Result.bind_congr fun root _ => ?_
  rw [Result.map_bind]
  rfl

/-- **Calls.**  A function that writes the rules of a query with parameters by position is
called once for each live rule and not at all otherwise, in the order of the walk, with the
path of the rule and with the number of all parameters of the answers before, and the
parameters of the query are those of the answers in a row. -/
theorem calls_of_format {out : Output}
    (hformat : FormatOptions.formatOf o.format = .ok (.dialect .parameterized))
    (hvalidate : o.validate.truthy = false) (hhook : o.ruleHook = .given hook)
    (hbinds : hook.Binds) (ht : t.IsTree) (h : format o t = .ok out) :
    ∃ plan root output bindings calls, o.resolve = .ok plan ∧ t.standardRoot = .ok root ∧
      (boundWriter .parameterized).run (givenPlan plan hook) t = .ok (output, bindings) ∧
      bindings.called = calls.map Call.toRuleCall ∧
      Calls (fun hook => format { o with ruleHook := .given hook } t) hook calls ∧
      calls.map (fun c => (c.context.path, c.rule)) = root.liveRules ∧
      (∀ before c after, calls = before ++ c :: after →
        c.context.processed = (before.flatMap Call.params).length) ∧
      out = .bound ⟨output.getD (plan.fallbackOr (.text always)),
        .list (calls.flatMap Call.params)⟩ := by
  obtain ⟨plan, hplan, -⟩ := Result.bind_eq_ok h
  have hplans := FormatOptions.plans_of_resolve hplan
  have hstyle : plan.style.format = .dialect .parameterized :=
    Except.ok.inj (hplans.format.symm.trans hformat)
  have hrun := format_given hplan hstyle (hplans.validate.trans hvalidate) ht
  have hself : ({ o with ruleHook := .given hook } : FormatOptions) = o := by rw [← hhook]
  have hout := hrun hook
  rw [hself, h] at hout
  obtain ⟨root, hroot, hout⟩ := Result.bind_eq_ok hout.symm
  obtain ⟨⟨output, bindings⟩, hwrite, hout⟩ := Result.bind_eq_ok hout
  have hstandard := ht.isStandard_of_standardRoot hroot
  have htracks (hook : RuleHook) (hbinds : hook.Binds) :=
    (joins_given plan hbinds).tracks hstandard (fun _ _ => trivial)
      (fun _ _ => trivial) [] {}
  obtain ⟨calls, htrace, hcalled, hanswers⟩ :=
    exists_trace hbinds ((htracks hook hbinds).writeRules_eq hwrite)
  have hran :
      (boundWriter .parameterized).run (givenPlan plan hook) t = .ok (output, bindings) := by
    have hvalidate' : (givenPlan plan hook).validate = false := hplans.validate.trans hvalidate
    rw [Writer.run_of_not_validate _ t hvalidate', hroot, Result.ok_bind, hwrite]
  refine ⟨plan, root, output, bindings, calls, hplan, hroot, hran, by simpa using htrace.called_eq,
    ⟨hanswers, ?_, ?_⟩, hcalled.trans (Node.liveRules_eq hstandard).symm, ?_, ?_⟩
  · intro hook' hsame
    have halike := htrace.alike hanswers hsame
    rw [hcalled] at halike
    have hnode := (joins_given plan hbinds).writeNode_eq hstandard
      (fun _ _ => trivial) (fun _ _ => trivial) halike
    rw [hrun hook', hrun hook, hroot, Result.ok_bind, Result.ok_bind, hnode]
  · rintro hook' before after c e hbinds' rfl hsame herror
    have hanswers' : ∀ b ∈ before, b.ask hook' = .ok b.answer := fun b hb =>
      (hsame b hb).trans (hanswers b (List.mem_append_left _ hb))
    have hrules := htrace.writeRules_eq_error hanswers' herror
    have hnode := htracks hook' hbinds'
    rw [← hcalled, hrules] at hnode
    rw [hrun hook', hroot, Result.ok_bind, hnode.eq_error]
    rfl
  · rintro before c after rfl
    simpa using htrace.processed_eq
  · have hparams : bindings.params = calls.flatMap Call.params := by
      simpa using htrace.params_eq
    rw [← hparams]
    exact (Except.ok.inj hout).symm

/-- Writes the number of the first parameter of a rule, and binds all its values. -/
def numberingHook : RuleHook := fun r _ context =>
  .ok (some (.list [
    .text (r.field.display ++ " #" ++ Value.intText ((context.map (·.processed)).getD 0 + 1)),
    .list r.value.toItems]))

/-- Rules that bind several parameters and none, a disabled one and a disabled group
between them. -/
def callsSpecimen : Node :=
  .interleaved {}
    [.rule (Rule.of "a" .isIn (.list [.int 1, .int 2])), .bare (.text "or"),
      .rule { Rule.of "b" .eq (.list [.int 3]) with disabled := true }, .bare (.text "or"),
      .interleaved { negated := true } [.rule (Rule.of "c" .isIn (.list []))], .bare (.text "or"),
      .interleaved { disabled := true } [.rule (Rule.of "d" .eq (.list [.int 4]))],
      .bare (.text "or"), .rule (Rule.of "e" .eq (.list [.int 5]))]

/-- The options under which that function writes the rules. -/
def numberingOptions : FormatOptions :=
  { format := .text "parameterized", ruleHook := .given numberingHook }

theorem calls_of_format_specimen :
    ∃ plan root output bindings calls, numberingOptions.resolve = .ok plan ∧
      callsSpecimen.standardRoot = .ok root ∧
      (boundWriter .parameterized).run (givenPlan plan numberingHook) callsSpecimen =
        .ok (output, bindings) ∧
      bindings.called = calls.map Call.toRuleCall ∧
      Calls (fun hook => format { numberingOptions with ruleHook := .given hook } callsSpecimen)
        numberingHook calls ∧
      calls.map (fun c => (c.context.path, c.rule)) = root.liveRules ∧
      (∀ before c after, calls = before ++ c :: after →
        c.context.processed = (before.flatMap Call.params).length) ∧
      .bound ⟨.text "(a #1 or NOT (c #3) or e #3)", .list [.int 1, .int 2, .int 5]⟩ =
        Output.bound ⟨output.getD (plan.fallbackOr (.text always)),
          .list (calls.flatMap Call.params)⟩ := by
  have hbinds : numberingHook.Binds := by
    intro r style context answer h
    cases h
    exact ⟨_, _, rfl⟩
  have ht : callsSpecimen.IsTree := by
    refine .interleaved rfl ?_
    simp only [Node.turnMembers, Node.everySecond, List.forall_mem_cons, List.not_mem_nil,
      false_imp_iff, implies_true, and_true]
    refine ⟨.rule _, .rule _, .interleaved rfl ?_, .interleaved rfl ?_, .rule _⟩ <;>
      simpa [Node.turnMembers, Node.everySecond] using Node.IsTree.rule _
  exact calls_of_format (o := numberingOptions) rfl rfl rfl hbinds ht rfl

end Query
end RuleTree
