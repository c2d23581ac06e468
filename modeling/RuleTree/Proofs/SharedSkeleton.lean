import RuleTree.Proofs.Parameters
import RuleTree.Query

/-! # One skeleton for all placeholders

A query with its parameters bound by question marks, by numbers or by names is
one row of texts with different placeholders between them, and the parameters
come in one order (`Sql.format_shared_skeleton`).  A query that cannot be written
is refused by all three for the same reason.
-/
namespace RuleTree
namespace Sql

/-! ### Texts and placeholders in turns -/

/-- Texts in a row, with a placeholder before each of them but the first. -/
def weave (first : String) : List String → List String → String
  | mark :: marks, text :: texts => first ++ mark ++ weave text marks texts
  | _, _ => first

theorem append_weave (s first : String) (marks texts : List String) :
    s ++ weave first marks texts = weave (s ++ first) marks texts := by
  unfold weave
  split <;> simp only [String.append_assoc]

namespace Draft

/-- The text before the first parameter. -/
def first : Draft → String
  | [] => ""
  | .text s :: rest => s ++ first rest
  | .slot _ :: _ => ""

/-- The texts after the parameters. -/
def texts : Draft → List String
  | [] => []
  | .text _ :: rest => texts rest
  | .slot _ :: rest => first rest :: texts rest

theorem length_texts (d : Draft) : d.texts.length = d.slots.length := by
  induction d with
  | nil => rfl
  | cons part d ih => cases part <;> simp [texts, slots, ih]

/-- Placeholders come between the texts of a draft. -/
theorem fill_eq_weave {d : Draft} {marks : List String} (h : marks.length = d.slots.length) :
    d.fill marks = weave d.first marks d.texts := by
  induction d generalizing marks with
  | nil =>
    obtain rfl := List.length_eq_zero_iff.mp h
    rfl
  | cons part d ih =>
    cases part with
    | text s => rw [fill, ih h, append_weave, first, texts]
    | slot slot =>
      obtain ⟨mark, marks, rfl⟩ := List.exists_cons_of_length_pos (by rw [h]; simp [slots])
      have hmarks : marks.length = (slots d).length := by simpa [slots] using h
      rw [fill, ih hmarks, first, texts, weave, String.empty_append]

end Draft

/-! ### Trees -/

/-- A plan with the usual names for parameters where it has none of its own. -/
def namedPerField (plan : FormatPlan) : FormatPlan :=
  { plan with names := plan.names.orElse NameSource.perField }

section
variable (b : Binding) {plan : FormatPlan} {t : Node}

theorem params_bindings (style : Style) (slots : List Slot) :
    (if b.dialect == .parameterizedNamed then Value.map (b.bindings style slots).named
      else .list (b.bindings style slots).params) = b.params style [] slots := by
  cases b <;> rfl

theorem bound_eq_run :
    bound b.dialect (b.plan plan) t = (do
      let (output, bindings) ← (boundWriter b.dialect).run (b.plan (namedPerField plan)) t
      return ⟨output.getD (plan.fallbackOr (.text always)),
        if b.dialect == .parameterizedNamed then .map bindings.named
        else .list bindings.params⟩) := rfl

variable (hvalueHook : plan.valueHook = .absent) (hruleHook : plan.ruleHook = .absent)
  (hnames : b = .named → plan.names = .absent)
  (ht : b = .named → ∀ r ∈ t.rules, ∃ name, r.field = .text name)
include hvalueHook hruleHook hnames ht

theorem run_abreast :
    Writer.Abreast (fun _ => {}) (b.bindings plan.style) SameFault
      (Writer.Maybe (Fills (b.mark plan.style)) [])
      (draftWriter.run (Binding.unnumbered.plan (namedPerField plan)) t)
      ((boundWriter b.dialect).run (b.plan (namedPerField plan)) t) := by
  have hnamed : b = .named → (namedPerField plan).names = .given NameSource.perField := by
    intro hb
    rw [namedPerField, hnames hb]
    rfl
  have hstart : b.bindings plan.style [] = {} := by cases b <;> rfl
  exact (lockstep b hnamed hvalueHook hruleHook).run rfl rfl rfl hstart
    fun r hr hb => ht hb r hr

/-- A tree is refused as its draft is. -/
theorem bound_of_error {e : Error}
    (h : draftWriter.run (Binding.unnumbered.plan (namedPerField plan)) t = .error e) :
    ∃ e', bound b.dialect (b.plan plan) t = .error e' ∧ SameFault e e' := by
  have hrun := run_abreast b hvalueHook hruleHook hnames ht
  rw [h] at hrun
  rw [bound_eq_run b]
  generalize (boundWriter b.dialect).run _ t = x at hrun
  cases hrun with
  | error he => exact ⟨_, rfl, he⟩

/-- A tree is its draft with the placeholders; an empty one is what the plan has for it. -/
theorem bound_of_ok {d : Option Draft} {bindings : Bindings}
    (h : draftWriter.run (Binding.unnumbered.plan (namedPerField plan)) t = .ok (d, bindings)) :
    bound b.dialect (b.plan plan) t =
      .ok ⟨(d.map fun d => Value.text (d.fill (along (b.mark plan.style) [] d.slots))).getD
          (plan.fallbackOr (.text always)),
        b.params plan.style [] (d.getD []).slots⟩ := by
  have hrun := run_abreast b hvalueHook hruleHook hnames ht
  rw [h] at hrun
  rw [bound_eq_run b]
  generalize (boundWriter b.dialect).run _ t = x at hrun
  cases hrun with
  | ok hout =>
    rw [Result.ok_bind]
    dsimp only
    rw [params_bindings]
    cases hout with
    | none => rfl
    | some hfills =>
      obtain ⟨rfl, rfl⟩ := hfills
      rfl

omit hnames ht in
/-- **Trees.**  A tree is refused by all ways to bind, or it is one draft with the
placeholders of each. -/
theorem bound_shared (ht : ∀ r ∈ t.rules, ∃ name, r.field = .text name)
    (hnames : plan.names = .absent) {usual : String}
    (husual : plan.fallbackOr (.text always) = .text usual) :
    (∃ e, ∀ b : Binding, ∃ e', bound b.dialect (b.plan plan) t = .error e' ∧ SameFault e e') ∨
      ∃ d : Draft, ∀ b : Binding, bound b.dialect (b.plan plan) t =
        .ok ⟨.text (weave d.first (along (b.mark plan.style) [] d.slots) d.texts),
          b.params plan.style [] d.slots⟩ := by
  have hnames' : ∀ b : Binding, b = .named → plan.names = .absent := fun _ _ => hnames
  cases hdraft : draftWriter.run (Binding.unnumbered.plan (namedPerField plan)) t with
  | error e =>
    exact .inl ⟨e, fun b =>
      bound_of_error b hvalueHook hruleHook (hnames' b) (fun _ => ht) hdraft⟩
  | ok out =>
    obtain ⟨d, bindings⟩ := out
    have hbound (b : Binding) :=
      bound_of_ok b hvalueHook hruleHook (hnames' b) (fun _ => ht) hdraft
    cases d with
    | none =>
      refine .inr ⟨[.text usual], fun b => ?_⟩
      have hfirst : Draft.first [.text usual] = usual := String.append_empty
      rw [hbound, husual, hfirst]
      rfl
    | some d =>
      refine .inr ⟨d, fun b => ?_⟩
      rw [hbound, ← Draft.fill_eq_weave (length_along _ _ _)]
      rfl

end

/-! ### Options -/

/-- The options of a way to bind. -/
def Binding.options (b : Binding) (o : FormatOptions) : FormatOptions :=
  { o with
    format := .text b.dialect.name
    numbered := match b with
      | .unnumbered => .bool false
      | .numbered => .bool true
      | .named => o.numbered }

/-- The options come to the same plan for all ways to bind, but for the way itself. -/
theorem resolve_options (b : Binding) {o : FormatOptions} {p : String}
    (hmarked : o.paramPrefix = .text p) :
    (b.options o).resolve =
      ({ o with format := .text "json" } : FormatOptions).resolve.map b.plan := by
  have hformat : FormatOptions.formatOf (.text b.dialect.name) = .ok (.dialect b.dialect) := by
    cases b <;> rfl
  have hjson : FormatOptions.formatOf (.text "json") = .ok .json := rfl
  unfold FormatOptions.resolve
  simp only [Binding.options, hformat, hjson, Result.ok_bind]
  rw [Result.map_bind]
  refine Result.bind_congr fun preset _ => ?_
  rw [Result.map_bind]
  refine Result.bind_congr fun policy _ => ?_
  rw [Result.map_bind]
  refine Result.bind_congr fun quotes _ => ?_
  rw [Result.map_bind]
  refine Result.bind_congr fun fields _ => ?_
  rw [hmarked]
  cases b <;> rfl

/-- What options come to is what they say. -/
theorem eq_of_resolve {o : FormatOptions} {plan : FormatPlan} {p : String}
    (hmarked : o.paramPrefix = .text p) (h : o.resolve = .ok plan) :
    plan.names = o.names ∧ plan.valueHook = o.valueHook ∧ plan.ruleHook = o.ruleHook ∧
      plan.fallback = o.fallback ∧ plan.style.paramPrefix = .text p ∧
      plan.style.keepPrefix = o.keepPrefix.truthy := by
  obtain ⟨format, -, h⟩ := Result.bind_eq_ok h
  obtain ⟨preset, -, h⟩ := Result.bind_eq_ok h
  obtain ⟨policy, -, h⟩ := Result.bind_eq_ok h
  obtain ⟨quotes, -, h⟩ := Result.bind_eq_ok h
  obtain ⟨fields, -, h⟩ := Result.bind_eq_ok h
  obtain rfl := Except.ok.inj h
  rw [hmarked]
  exact ⟨rfl, rfl, rfl, rfl, rfl, rfl⟩

/-! ### Queries -/

/-- Options that leave rules, values and names to the library, mark placeholders
by a text, and write an empty query as a text. -/
structure UsualOptions (o : FormatOptions) (p : String) : Prop where
  marked : o.paramPrefix = .text p
  names : o.names = .absent
  valueHook : o.valueHook = .absent
  ruleHook : o.ruleHook = .absent
  fallback : o.fallback = .null ∨ ∃ s, o.fallback = .text s

/-- All ways to bind refuse a query, for the same fault. -/
def AllRefuse (o : FormatOptions) (query : Node) : Prop :=
  ∃ e, ∀ b : Binding, ∃ e', Query.format (b.options o) query = .error e' ∧ SameFault e e'

/-- All ways to bind write a query as the same texts, with question marks, the
numbers from one on or distinct names between them, and bind the same values in
the same order. -/
def ShareSkeleton (o : FormatOptions) (p : String) (query : Node) : Prop :=
  ∃ (first : String) (texts names : List String) (values : List Value),
    texts.length = values.length ∧ names.length = values.length ∧ names.Nodup ∧
    Query.format (Binding.unnumbered.options o) query = .ok (.bound
      ⟨.text (weave first (List.replicate values.length "?") texts), .list values⟩) ∧
    Query.format (Binding.numbered.options o) query = .ok (.bound
      ⟨.text (weave first
          ((List.range values.length).map fun i => p ++ Value.natText (i + 1)) texts),
        .list values⟩) ∧
    Query.format (Binding.named.options o) query = .ok (.bound
      ⟨.text (weave first (names.map (p ++ ·)) texts),
        .map ((names.map fun name => if o.keepPrefix.truthy then p ++ name else name).zip values)⟩)

section
variable {o : FormatOptions} {p : String} {query : Node}

theorem format_options (b : Binding) (hmarked : o.paramPrefix = .text p) :
    Query.format (b.options o) query = (do
      let plan ← ({ o with format := .text "json" } : FormatOptions).resolve
      let tree ← Query.ofInput query
      (bound b.dialect (b.plan plan) tree).map .bound) := by
  rw [Query.format, resolve_options b hmarked]
  cases ({ o with format := .text "json" } : FormatOptions).resolve with
  | error e => rfl
  | ok plan => cases b <;> rfl

/-- **One skeleton.**  A query whose rules name their fields by texts is refused by
all ways to bind parameters, or its conditions are the same texts with different
placeholders and its parameters come in the same order. -/
theorem format_shared_skeleton (ho : UsualOptions o p)
    (hfields : ∀ t, Query.ofInput query = .ok t → ∀ r ∈ t.rules, ∃ name, r.field = .text name) :
    AllRefuse o query ∨ ShareSkeleton o p query := by
  cases hplan : ({ o with format := .text "json" } : FormatOptions).resolve with
  | error e =>
    exact .inl ⟨e, fun b => ⟨e, by rw [format_options b ho.marked, hplan]; rfl, rfl⟩⟩
  | ok plan =>
    cases htree : Query.ofInput query with
    | error e =>
      exact .inl ⟨e, fun b => ⟨e, by rw [format_options b ho.marked, hplan, htree]; rfl, rfl⟩⟩
    | ok t =>
      have hformat (b : Binding) : Query.format (b.options o) query =
          (bound b.dialect (b.plan plan) t).map .bound := by
        rw [format_options b ho.marked, hplan, htree]
        rfl
      obtain ⟨hnames, hvalueHook, hruleHook, hfallback, hstyle, hkeep⟩ :=
        eq_of_resolve (o := { o with format := .text "json" }) ho.marked hplan
      obtain ⟨usual, husual⟩ : ∃ usual, plan.fallbackOr (.text always) = .text usual := by
        rw [FormatPlan.fallbackOr, hfallback]
        rcases ho.fallback with h | ⟨s, h⟩
        · exact ⟨always, by simp only [h]⟩
        · exact ⟨s, by simp only [h]⟩
      rcases bound_shared (hvalueHook.trans ho.valueHook) (hruleHook.trans ho.ruleHook)
        (hfields t htree) (hnames.trans ho.names) husual with ⟨e, hrefuse⟩ | ⟨d, hd⟩
      · refine .inl ⟨e, fun b => ?_⟩
        obtain ⟨e', he', hsame⟩ := hrefuse b
        exact ⟨e', by rw [hformat, he']; rfl, hsame⟩
      · refine .inr ⟨d.first, d.texts, along slotName [] d.slots, d.slots.map (·.value),
          by simp [d.length_texts], by simp, nodup_slotNames [] d.slots, ?_, ?_, ?_⟩
        · rw [hformat, hd, Binding.along_unnumbered, List.length_map]
          rfl
        · rw [hformat, hd, Binding.along_numbered, hstyle, List.length_map]
          simp only [List.length_nil, Nat.zero_add]
          rfl
        · rw [hformat, hd, Binding.along_named, Binding.params, Binding.entries,
            funext (Binding.key_eq hstyle hkeep), hstyle]
          rfl

end

/-- Conditions on two fields with the same stem, and a negated one. -/
def stemSpecimen : Node :=
  .interleaved {}
    [.rule (Rule.of "unit price" .isIn (.list [.int 1, .int 2])), .bare (.text "or"),
      .rule (Rule.of "unit_price" .eq (.text "x")), .bare (.text "or"),
      .interleaved { negated := true }
        [.rule (Rule.of "age" .between (.list [.int 18, .int 65]))]]

theorem format_shared_skeleton_specimen :
    UsualOptions { paramPrefix := .text ":" } ":" ∧
      (∀ t, Query.ofInput stemSpecimen = .ok t → ∀ r ∈ t.rules, ∃ name, r.field = .text name) ∧
      ShareSkeleton { paramPrefix := .text ":" } ":" stemSpecimen := by
  have ho : UsualOptions { paramPrefix := .text ":" } ":" := ⟨rfl, rfl, rfl, rfl, .inl rfl⟩
  have hfields : ∀ t, Query.ofInput stemSpecimen = .ok t →
      ∀ r ∈ t.rules, ∃ name, r.field = .text name := by
    intro t ht
    obtain rfl : stemSpecimen = t := Except.ok.inj ht
    simp only [stemSpecimen, Node.rules_interleaved, Node.rules_rule, Node.rules_bare,
      List.flatMap_cons, List.flatMap_nil, List.append_nil, List.nil_append,
      List.singleton_append, List.forall_mem_cons]
    exact ⟨⟨_, rfl⟩, ⟨_, rfl⟩, ⟨_, rfl⟩, by simp⟩
  refine ⟨ho, hfields, (format_shared_skeleton ho hfields).resolve_left ?_⟩
  rintro ⟨e, hrefuse⟩
  obtain ⟨e', he', -⟩ := hrefuse .unnumbered
  cases he'

end Sql
end RuleTree
