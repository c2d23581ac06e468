import RuleTree.Proofs.Inlining

/-! # Texts as parameters

A rule that compares with a text, or matches one, binds what is left of the literal of the
text, or of its pattern, without the outer quotes.  Where no quote had to be doubled that is
the text itself, unless a line ends in it: a literal is taken for one only if it is a single
line, and otherwise is bound as it is, with its quotes (`Sql.unquote_textLiteral_iff`).  So
parameters carry the texts of the caller exactly if these are single lines
(`Sql.boundRule_text_iff`).
-/
namespace RuleTree
namespace Sql
open Text

/-! ### Literals and patterns -/

/-- A text in quotes in which a line ends is bound with the quotes. -/
theorem unquote_textLiteral_lines {s : String} (h : '\n' ∈ s.toList) :
    unquote (.text (textLiteral s)) = .text (textLiteral s) := by
  have hcontains : (textLiteral s).toList.contains '\n' = true := by
    rw [toList_textLiteral]
    simp [mem_doubled, h]
  have hlast : (textLiteral s).toList.getLast? = some '\'' := by
    rw [toList_textLiteral, ← List.cons_append, List.getLast?_concat]
  have hquoted : isQuotedLiteral (textLiteral s).toList = false := by
    rw [isQuotedLiteral, isQuotedLine, hcontains, hlast]
    simp
  rw [unquote, hquoted, if_neg Bool.false_ne_true]

/-- A text without quotes is bound as itself exactly if no line ends in it. -/
theorem unquote_textLiteral_iff {s : String} (hquote : '\'' ∉ s.toList) :
    unquote (.text (textLiteral s)) = .text s ↔ '\n' ∉ s.toList := by
  constructor
  · intro h hbreak
    rw [unquote_textLiteral_lines hbreak] at h
    have hself : textLiteral s = s := Value.text.inj h
    exact hquote (by rw [← hself, toList_textLiteral]; exact List.mem_cons_self)
  · exact fun hbreak => unquote_textLiteral fun c hc =>
      ⟨ne_of_mem_of_not_mem hc hquote, ne_of_mem_of_not_mem hc hbreak⟩

/-- The text that a rule with one text compares with: the text, or the pattern of it. -/
def comparand (op : Operator) (s : String) : String :=
  if op.isTextMatch then likePattern op (.text s) else s

/-- But for percent signs a pattern has the characters of its text. -/
theorem mem_comparand {c : Char} (hc : c ≠ '%') (op : Operator) (s : String) :
    c ∈ (comparand op s).toList ↔ c ∈ s.toList := by
  unfold comparand likePattern
  split
  · split
    · simp [hc]
    · split <;> simp [hc]
  · rfl

/-! ### Rules -/

/-- A rule that compares with a text which the policy takes for no number, or matches one; no
quote stands in the text. -/
structure BindsText (policy : NumberPolicy) (r : Rule) (op : Operator) (s : String) : Prop where
  operator : r.operator? = some op
  literal : r.comparesFields = false
  value : r.value = .text s
  kind : op.isTextMatch = true ∨ op.isComparison = true ∧ policy.accepts s.toList = false
  noQuote : '\'' ∉ s.toList

/-- A rule that compares with a text which the policy takes for no number, or matches one. -/
structure SuppliesText (policy : NumberPolicy) (r : Rule) (op : Operator) (s : String) :
    Prop where
  operator : r.operator? = some op
  literal : r.comparesFields = false
  value : r.value = .text s
  kind : op.isTextMatch = true ∨ op.isComparison = true ∧ policy.accepts s.toList = false

section
variable {plan : FormatPlan} {r : Rule} {op : Operator} {s : String}
  (hr : SuppliesText plan.style.policy r op s)
include hr

theorem SuppliesText.operator_kind :
    op.isNullCheck = false ∧ op.isMembership = false ∧ op.isRange = false := by
  rcases hr.kind with htext | ⟨hcomparison, -⟩
  · exact Operator.of_isTextMatch htext
  · obtain ⟨hnull, hmember, hrange, -⟩ := Operator.of_isComparison hcomparison
    exact ⟨hnull, hmember, hrange⟩

/-- Such a rule is written with its text, or the pattern of it, as a literal. -/
theorem SuppliesText.valueText_eq :
    valueText r plan.style = .ok (textLiteral (comparand op s)) := by
  obtain ⟨hnull, hmember, hrange⟩ := hr.operator_kind
  rw [valueText, hr.literal, hr.operator, hr.value]
  simp only [hnull, hmember, hrange, Bool.false_eq_true, if_false]
  unfold comparand
  rcases hr.kind with htext | ⟨hcomparison, haccepts⟩
  · simp only [htext, if_true]
  · have htext := (Operator.of_isComparison hcomparison).2.2.2
    simp only [htext, Bool.false_eq_true, if_false]
    unfold Sql.literal
    simp only [Value.rendersAsNumber, haccepts, Bool.false_eq_true, if_false, Value.display_text]

/-- Its parameter is what is left of the literal without the quotes. -/
theorem SuppliesText.singleParam_eq (written : Value) :
    singleParam plan.style.policy op r.value written = unquote written := by
  unfold singleParam
  rcases hr.kind with htext | ⟨-, haccepts⟩
  · rw [htext, if_pos rfl]
  · rw [hr.value]
    simp only [haccepts, Bool.false_eq_true, if_false, ite_self]

theorem SuppliesText.ruleSkeleton_eq {d : Dialect}
    (hd : d = .parameterized ∨ d = .parameterizedNamed) (hformat : plan.style.format = .dialect d)
    (hhook : plan.valueHook = .absent) :
    ruleSkeleton plan r =
      .ok ⟨[.text (fieldText plan.style r.field ++ " " ++ Dialect.sqlSpelling op ++ " "),
        .param (unquote (.text (textLiteral (comparand op s))))], true⟩ := by
  obtain ⟨hnull, hmember, hrange⟩ := hr.operator_kind
  have hspell : op.spellIn (.text plan.style.format.name) = .ok (Dialect.sqlSpelling op) := by
    rw [hformat]
    rcases hd with rfl | rfl <;> cases op <;> rfl
  have hvalue : ruleValue plan r = .ok (.text (textLiteral (comparand op s))) := by
    rw [ruleValue, hhook]
    exact congrArg (Except.map Value.text) hr.valueText_eq
  have hskeleton : ruleSkeleton plan r = .ok (skeletonOf plan.style op (Dialect.sqlSpelling op) r
      (.text (textLiteral (comparand op s)))) := by
    rw [ruleSkeleton, Rule.resolve_of_operator? hr.operator, Result.ok_bind, hspell,
      Result.ok_bind, hvalue]
    rfl
  rw [hskeleton, skeletonOf]
  simp only [hnull, hmember, hrange, hr.literal, hr.singleParam_eq, Bool.or_self,
    Bool.false_and, Bool.false_eq_true, if_false]

end

section
variable {plan : FormatPlan} {r : Rule} {start : String} {v : Value} (context : Option RuleContext)
  (asked : List Value)

/-- The condition of one parameter binds it by position. -/
theorem boundRule_positional (hformat : plan.style.format = .dialect .parameterized)
    (hskeleton : ruleSkeleton plan r = .ok ⟨[.text start, .param v], true⟩) :
    ∃ mark, boundRule plan r context asked =
      .ok (⟨.text (trim (start ++ mark)), .list [v]⟩, asked) := by
  have hposition : bindsByPosition plan.style = true := by
    rw [bindsByPosition, hformat]
    rfl
  obtain ⟨mark, hmarks⟩ : ∃ mark, positionalMarks plan.style
      ((context.map (·.processed)).getD 0) 1 = [mark] := ⟨_, rfl⟩
  refine ⟨mark, ?_⟩
  have hparams : (⟨[.text start, .param v], true⟩ : Skeleton).params = [v] := rfl
  have hrender : (⟨[.text start, .param v], true⟩ : Skeleton).render [mark] =
      trim (start ++ mark) := by
    simp [Skeleton.render, Skeleton.fill]
  rw [boundRule, hskeleton, Result.ok_bind]
  simp only [hposition, hparams, List.length_singleton, hmarks, hrender, if_true]
  rfl

/-- It binds it by name. -/
theorem boundRule_named (hformat : plan.style.format = .dialect .parameterizedNamed)
    (hskeleton : ruleSkeleton plan r = .ok ⟨[.text start, .param v], true⟩) {source : NameSource}
    {name : String} (hnames : plan.names = .given source)
    (hname : source r.field asked = .ok name) :
    ∃ mark, boundRule plan r context asked = .ok (⟨.text (trim (start ++ mark)),
      .map [(Binding.key plan.style name, v)]⟩, r.field :: asked) := by
  have hposition : bindsByPosition plan.style = false := by
    rw [bindsByPosition, hformat]
    rfl
  have hminted : parameterNames plan r.field asked 1 = .ok [name] := by
    rw [parameterNames_given hnames]
    simp [NameSource.namesFor, hname, Result.ok_bind]
  refine ⟨plan.style.paramPrefix.display ++ name, ?_⟩
  have hparams : (⟨[.text start, .param v], true⟩ : Skeleton).params = [v] := rfl
  have hrender : (⟨[.text start, .param v], true⟩ : Skeleton).render
      [plan.style.paramPrefix.display ++ name] =
        trim (start ++ (plan.style.paramPrefix.display ++ name)) := by
    simp [Skeleton.render, Skeleton.fill]
  rw [boundRule, hskeleton, Result.ok_bind, ← hrender]
  simp only [hposition, hparams, List.length_singleton, hminted, Bool.false_eq_true, if_false]
  rfl

end

section
variable {plan : FormatPlan} {r : Rule} {op : Operator} {s : String}
  (hr : BindsText plan.style.policy r op s)
include hr

theorem BindsText.suppliesText : SuppliesText plan.style.policy r op s :=
  ⟨hr.operator, hr.literal, hr.value, hr.kind⟩

/-- Such a rule binds its text, or the pattern of it, exactly if that is a single line. -/
theorem BindsText.unquote_iff :
    unquote (.text (textLiteral (comparand op s))) = .text (comparand op s) ↔ '\n' ∉ s.toList := by
  rw [unquote_textLiteral_iff (by rw [mem_comparand (by decide)]; exact hr.noQuote),
    mem_comparand (by decide)]

/-- **Texts.**  A rule that compares with a text, or matches one, binds exactly that text, or
exactly its pattern, by position and by name, if the text is a single line and only then. -/
theorem boundRule_text_iff (hhook : plan.valueHook = .absent) (context : Option RuleContext)
    (asked : List Value) :
    (plan.style.format = .dialect .parameterized →
      ∃ sql v, boundRule plan r context asked = .ok (⟨.text sql, .list [v]⟩, asked) ∧
        (v = .text (comparand op s) ↔ '\n' ∉ s.toList)) ∧
    ∀ source name, plan.style.format = .dialect .parameterizedNamed →
      plan.names = .given source → source r.field asked = .ok name →
      ∃ sql v, boundRule plan r context asked =
          .ok (⟨.text sql, .map [(Binding.key plan.style name, v)]⟩, r.field :: asked) ∧
        (v = .text (comparand op s) ↔ '\n' ∉ s.toList) := by
  constructor
  · intro hformat
    have hskeleton := hr.suppliesText.ruleSkeleton_eq (.inl rfl) hformat hhook
    obtain ⟨mark, hbound⟩ := boundRule_positional context asked hformat hskeleton
    exact ⟨_, _, hbound, hr.unquote_iff⟩
  · intro source name hformat hnames hname
    have hskeleton := hr.suppliesText.ruleSkeleton_eq (.inr rfl) hformat hhook
    obtain ⟨mark, hbound⟩ := boundRule_named context asked hformat hskeleton hnames hname
    exact ⟨_, _, hbound, hr.unquote_iff⟩

end

/-- A text with a comma, double quotes, a tab and a backslash is bound as it is, by position,
and so is its pattern, by name. -/
theorem boundRule_text_iff_specimen :
    (∃ sql, boundRule { style := { format := .dialect .parameterized, policy := .strict } }
        (Rule.of "a" .eq (.text "1,\"x\"\t\\")) none [] =
      .ok (⟨.text sql, .list [.text "1,\"x\"\t\\"]⟩, [])) ∧
    ∃ sql, boundRule
        { style := { format := .dialect .parameterizedNamed }, names := .given .perField }
        (Rule.of "a" .doesNotBeginWith (.text "%\t")) none [.text "a"] =
      .ok (⟨.text sql, .map [("a_2", .text "%\t%")]⟩, [.text "a", .text "a"]) := by
  have hcompared : BindsText .strict (Rule.of "a" .eq (.text "1,\"x\"\t\\")) .eq "1,\"x\"\t\\" :=
    ⟨rfl, rfl, rfl, .inr ⟨rfl, by decide⟩, by decide⟩
  have hmatched : BindsText .never (Rule.of "a" .doesNotBeginWith (.text "%\t")) .doesNotBeginWith
      "%\t" := ⟨rfl, rfl, rfl, .inl rfl, by decide⟩
  constructor
  · let plan : FormatPlan := { style := { format := .dialect .parameterized, policy := .strict } }
    have hhook : plan.valueHook = .absent := rfl
    obtain ⟨sql, v, hbound, hv⟩ := (boundRule_text_iff hcompared hhook none []).1 rfl
    obtain rfl := hv.mpr (by decide)
    exact ⟨sql, hbound⟩
  · let plan : FormatPlan :=
      { style := { format := .dialect .parameterizedNamed }, names := .given .perField }
    have hhook : plan.valueHook = .absent := rfl
    obtain ⟨sql, v, hbound, hv⟩ :=
      (boundRule_text_iff hmatched hhook none [.text "a"]).2 .perField "a_2" rfl rfl rfl
    obtain rfl := hv.mpr (by decide)
    exact ⟨sql, hbound⟩

/-- A text of two lines is bound in the quotes of its literal. -/
theorem boundRule_text_iff_twoLines :
    BindsText .never (Rule.of "a" .eq (.text "x\ny")) .eq "x\ny" ∧
      boundRule { style := { format := .dialect .parameterized } }
          (Rule.of "a" .eq (.text "x\ny")) none [] =
        .ok (⟨.text "a = ?", .list [.text "'x\ny'"]⟩, []) :=
  ⟨⟨rfl, rfl, rfl, .inr ⟨rfl, rfl⟩, by decide⟩, rfl⟩

end Sql
end RuleTree
