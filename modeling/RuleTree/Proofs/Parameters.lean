import RuleTree.Proofs.Canonical
import RuleTree.Proofs.ParameterNames

/-! # Three ways to bind parameters

The parameters of a tree are bound by position, under question marks or under
running numbers, or by name.  Whichever way is taken, a tree is written in
lockstep with its draft (`Sql.lockstep`): the draft has the slots, and the slots
that come before a parameter say which placeholder it gets and what has been
bound so far.  So the three outputs are one draft filled in three ways.
-/
namespace RuleTree

/-- An error without the dialect that it arose in. -/
def Error.withoutDialect : Error → Error
  | .unsupportedOperator operator _ path => .unsupportedOperator operator .null path
  | e => e

namespace Sql
open NameSource

/-- The ways to bind parameters. -/
inductive Binding where
  /-- By position, with question marks. -/
  | unnumbered
  /-- By position, with running numbers. -/
  | numbered
  /-- By name. -/
  | named

namespace Binding

/-- The dialect that binds parameters so. -/
def dialect : Binding → Dialect
  | .unnumbered | .numbered => .parameterized
  | .named => .parameterizedNamed

/-- Whether placeholders are numbered; names are given regardless. -/
def numbers (usual : Bool) : Binding → Bool
  | .unnumbered => false
  | .numbered => true
  | .named => usual

/-- A plan with parameters bound so. -/
def plan (b : Binding) (plan : FormatPlan) : FormatPlan :=
  { plan with style := { plan.style with
      format := .dialect b.dialect, numbered := b.numbers plan.style.numbered } }

/-- The placeholder of a parameter, given those before it. -/
def mark (b : Binding) (style : Style) (before : List Slot) (slot : Slot) : String :=
  match b with
  | .unnumbered => "?"
  | .numbered => style.paramPrefix.display ++ Value.natText (before.length + 1)
  | .named => style.paramPrefix.display ++ slotName before slot

/-- The key that a name is bound under. -/
def key (style : Style) (name : String) : String :=
  if style.keepPrefix then style.paramPrefix.display ++ name else name

theorem key_eq {style : Style} {p : String} {keep : Bool} (hmarked : style.paramPrefix = .text p)
    (hkeep : style.keepPrefix = keep) (name : String) :
    key style name = if keep then p ++ name else name := by
  rw [key, hmarked, hkeep, Value.display_text]

/-- The entries of parameters bound by name. -/
def entries (style : Style) (before slots : List Slot) : List (String × Value) :=
  ((along slotName before slots).map (key style)).zip (slots.map (·.value))

/-- Parameters as they are bound. -/
def params (b : Binding) (style : Style) (before slots : List Slot) : Value :=
  match b with
  | .named => .map (entries style before slots)
  | _ => .list (slots.map (·.value))

/-- What has been bound once these parameters have. -/
def bindings (b : Binding) (style : Style) (slots : List Slot) : Bindings :=
  match b with
  | .named =>
    { named := entries style [] slots, count := slots.length, asked := askedFields slots }
  | _ => { params := slots.map (·.value), count := slots.length }

section
variable (style : Style) (before slots : List Slot)

theorem along_unnumbered :
    along (unnumbered.mark style) before slots = List.replicate slots.length "?" :=
  (along_position (fun _ => "?") before slots).trans (by rw [List.map_const', List.length_range])

/-- Numbers go on from those before. -/
theorem along_numbered :
    along (numbered.mark style) before slots = (List.range slots.length).map fun i =>
      style.paramPrefix.display ++ Value.natText (before.length + i + 1) :=
  along_position (fun n => style.paramPrefix.display ++ Value.natText (n + 1)) before slots

theorem along_named :
    along (named.mark style) before slots =
      (along slotName before slots).map (style.paramPrefix.display ++ ·) :=
  (map_along slotName (style.paramPrefix.display ++ ·) before slots).symm

theorem key_injective : Function.Injective (key style) := by
  intro name other h
  unfold key at h
  split at h
  · exact String.append_right_inj _ |>.mp h
  · exact h

theorem entries_append (more : List Slot) :
    entries style before (slots ++ more) =
      entries style before slots ++ entries style (before ++ slots) more := by
  simp only [entries, along_append, List.map_append]
  exact List.zip_append (by simp)

theorem keys_entries :
    (entries style before slots).map Prod.fst = (along slotName before slots).map (key style) :=
  List.map_fst_zip (by simp)

/-- Parameters are bound under distinct keys. -/
theorem nodup_keys : ((entries style before slots).map Prod.fst).Nodup := by
  rw [keys_entries]
  exact List.Pairwise.map (key style) (fun _ _ hne h => hne (key_injective style h))
    (nodup_slotNames before slots)

/-- New entries are added in their order. -/
theorem foldl_insert_entries :
    ((along slotName before slots).zip (slots.map (·.value))).foldl
      (fun m e => Value.insert (key style e.1) e.2 m) [] = entries style before slots := by
  have hentries : entries style before slots =
      ((along slotName before slots).zip (slots.map (·.value))).map (Prod.map (key style) id) :=
    List.zip_map_left
  have hfold : (entries style before slots).foldl (fun m e => Value.insert e.1 e.2 m) [] =
      entries style before slots := Value.foldl_insert (nodup_keys style before slots)
  rw [hentries, List.foldl_map] at hfold
  rw [hentries]
  exact hfold

end

/-- A placeholder ends with a question mark or with the last digit of a number. -/
theorem isMark_mark (b : Binding) (style : Style) (before : List Slot) (slot : Slot) :
    Text.IsMark (b.mark style before slot) := by
  have hnumber (s : String) (n : Nat) : Text.IsMark (s ++ Value.natText n) := by
    have hdigits : Text.IsMark (Value.intText n) :=
      Text.isMark_of_forall (Value.intText_ne_nil n) fun _ => Value.isBlank_of_mem_intText
    rw [Value.intText_natCast] at hdigits
    exact hdigits.append s
  cases b with
  | unnumbered => exact ⟨[], '?', by simp [mark], by decide⟩
  | numbered => exact hnumber _ _
  | named =>
    rw [mark, slotName, ← String.append_assoc]
    exact hnumber _ _

end Binding

/-! ### Drafts filled in -/

/-- Errors that differ at most in the dialect. -/
def SameFault (e e' : Error) : Prop := e.withoutDialect = e'.withoutDialect

theorem write_draft (r : Rule) (plan : FormatPlan) (context : Option RuleContext)
    (bindings : Bindings) :
    draftWriter.write plan r context bindings = (do
      let c ← ruleSkeleton plan r
      return (Draft.ofPieces r.field.display c.settled, bindings)) :=
  Write.lift_bind _ _ _

section
variable (mark : List Slot → Slot → String)

/-- How a draft and a condition go together, given the parameters before them: the
condition is the draft with a mark in the place of each parameter. -/
def Fills (before : List Slot) (d : Draft) (sql : Value) (after : List Slot) : Prop :=
  sql = .text (d.fill (along mark before d.slots)) ∧ after = before ++ d.slots

/-- The conditions of drafts in a row. -/
def conditions : List Slot → List Draft → List String
  | _, [] => []
  | before, d :: rest =>
    d.fill (along mark before d.slots) :: conditions (before ++ d.slots) rest

/-- Conditions are joined as their drafts are. -/
theorem joinWith_conditions (separator : String) (before : List Slot) (ds : List Draft) :
    Text.joinWith separator (conditions mark before ds) =
      (Draft.between separator ds).fill (along mark before (ds.flatMap Draft.slots)) := by
  induction ds generalizing before with
  | nil => rfl
  | cons d ds ih =>
    cases ds with
    | nil => simp [conditions, Draft.between]
    | cons e ds =>
      rw [List.flatMap_cons, along_append, Draft.between, Draft.fill_append (by simp), Draft.fill,
        ← ih, ← String.append_assoc]
      rfl

theorem joinGroup_conditions (combinator : Value) (negated : Bool) (before : List Slot)
    (ds : List Draft) :
    joinGroup combinator negated ((conditions mark before ds).map .text) =
      .ok (.text ((Draft.group combinator negated ds).fill
        (along mark before (ds.flatMap Draft.slots)))) := by
  have hfill : ∀ (d : Draft) (marks : List String), marks.length = d.slots.length →
      Draft.fill (d ++ [.text ")"]) marks = d.fill marks ++ ")" := fun d marks h => by
    have happend := Draft.fill_append h [.text ")"] []
    rwa [List.append_nil] at happend
  rw [joinGroup, Value.texts_map, Result.ok_bind, joinWith_conditions, Draft.group,
    List.cons_append, Draft.fill, hfill _ _ (by rw [Draft.slots_between, length_along]),
    ← String.append_assoc]
  rfl

variable {mark}

/-- Outputs in a row are conditions in a row. -/
theorem eq_conditions_of_row {before after : List Slot} {ds : List Draft} {sqls : List Value}
    (h : Writer.Row (Fills mark) before ds sqls after) :
    sqls = (conditions mark before ds).map .text ∧ after = before ++ ds.flatMap Draft.slots := by
  induction h with
  | nil => exact ⟨rfl, by simp⟩
  | cons hfirst _ ih =>
    obtain ⟨rfl, rfl⟩ := hfirst
    obtain ⟨rfl, rfl⟩ := ih
    exact ⟨rfl, by simp⟩

variable (hmark : ∀ before slot, Text.IsMark (mark before slot))
include hmark

theorem isMark_of_mem_along {before slots : List Slot} {s : String}
    (h : s ∈ along mark before slots) : Text.IsMark s := by
  obtain ⟨between, slot, rfl⟩ := exists_of_mem_along h
  exact hmark _ slot

theorem isEmpty_eq_isNothing (before : List Slot) (d : Draft) :
    d.isEmpty = Value.isNothing (.text (d.fill (along mark before d.slots))) := by
  have hmarks : ∀ s ∈ along mark before d.slots, s ≠ "" :=
    fun _ hs => (isMark_of_mem_along hmark hs).ne_empty
  have hempty := Draft.fill_eq_empty_iff (length_along mark before d.slots) hmarks
  exact Bool.eq_iff_iff.mpr (hempty.symm.trans beq_iff_eq.symm)

/-- The condition of a rule is its draft with the marks. -/
theorem fills_ofPieces (before : List Slot) (field : String) {c : Skeleton}
    (h : c.trimmed = true → Skeleton.IsTrimmable c.pieces) :
    Fills mark before (Draft.ofPieces field c.settled)
      (.text (c.render (along mark before (c.params.map (Slot.mk field)))))
      (before ++ c.params.map (Slot.mk field)) := by
  have hslots : (Draft.ofPieces field c.settled).slots = c.params.map (Slot.mk field) := by
    rw [← c.params_settled h]
    exact Draft.slots_ofPieces field ⟨c.settled, false⟩
  have hmarks : ∀ s ∈ along mark before (c.params.map (Slot.mk field)), Text.IsMark s :=
    fun _ => isMark_of_mem_along hmark
  have hrender := Skeleton.render_eq_fill h (by simp) hmarks
  rw [Fills, hslots, hrender, Draft.fill_ofPieces]
  exact ⟨rfl, rfl⟩

/-- **Writers of conditions.**  A writer that joins conditions in parentheses is in
lockstep with the writer of drafts if it is so on rules. -/
theorem lockstep_of_rules {plan plan' : FormatPlan} {v : Writer Value}
    {right : List Slot → Bindings} {P : Rule → Prop} (hempty : v.isEmpty = Value.isNothing)
    (hcombine : ∀ combinator negated isRoot parts,
      v.combine combinator negated isRoot parts = joinGroup combinator negated parts)
    (hrule : ∀ {r : Rule}, P r → ∀ before path,
      Writer.Abreast (fun _ => {}) right SameFault (Fills mark before)
        (draftWriter.writeRule plan path r {}) (v.writeRule plan' path r (right before))) :
    Writer.Lockstep draftWriter plan v plan' (fun _ => {}) right SameFault (Fills mark) P where
  refl _ := rfl
  isEmpty {before after d sql} h := by
    obtain ⟨rfl, -⟩ := h
    rw [hempty]
    exact isEmpty_eq_isNothing hmark before d
  skip {before after d sql} h hd := by
    obtain ⟨rfl, rfl⟩ := h
    rw [Draft.slots_of_isEmpty hd, List.append_nil]
  rule := hrule
  combine {before after ds sqls} hrow _ combinator negated isRoot := by
    obtain ⟨rfl, rfl⟩ := eq_conditions_of_row hrow
    refine .inl ⟨_, _, rfl, (hcombine _ _ _ _).trans
      (joinGroup_conditions mark combinator negated before ds), ?_⟩
    rw [Fills, Draft.slots_group]
    exact ⟨rfl, rfl⟩

end

/-! ### Rules -/

section
variable (b : Binding) {plan : FormatPlan} {r : Rule}

/-- Whichever way its parameters are bound, a rule has the same pieces. -/
theorem ruleSkeleton_plan {op : Operator} (hop : r.operator? = some op)
    (hhook : plan.valueHook = .absent) :
    ruleSkeleton (b.plan plan) r = (valueText r plan.style).map fun s =>
      skeletonOf plan.style op (Dialect.sqlSpelling op) r (.text s) := by
  have hresolve := Rule.resolve_of_operator? hop (.text b.dialect.name)
  have hspell : op.spellIn (.text b.dialect.name) = .ok (Dialect.sqlSpelling op) := by
    cases b <;> cases op <;> rfl
  have hvalue : ruleValue (b.plan plan) r = (valueText r plan.style).map .text := by
    have h : (b.plan plan).valueHook = .absent := hhook
    rw [ruleValue, h]
    rfl
  have hformat : (b.plan plan).style.format.name = b.dialect.name := rfl
  rw [ruleSkeleton, hformat, hresolve, Result.ok_bind, hspell, Result.ok_bind, hvalue]
  cases valueText r plan.style <;> rfl

theorem forField_plan (field : Option Field) :
    (b.plan plan).forField field = (plan.forField field).map b.plan :=
  FormatPlan.forField_map (fun _ => rfl) field

/-- The placeholders by position of the parameters of a rule. -/
theorem positionalMarks_plan (h : b.dialect = .parameterized) (before slots : List Slot) :
    positionalMarks (b.plan plan).style before.length slots.length =
      along (b.mark plan.style) before slots := by
  cases b with
  | named => cases h
  | unnumbered => exact (along_position (fun _ => "?") before slots).symm
  | numbered =>
    rw [Binding.along_numbered]
    refine List.map_congr_left fun i _ => ?_
    have hnumber : Value.intText ((before.length : Int) + (i + 1 : Nat)) =
        Value.natText (before.length + i + 1) := by
      rw [← Int.natCast_add, Value.intText_natCast, Nat.add_assoc]
    exact congrArg (plan.style.paramPrefix.display ++ ·) hnumber

/-- The names of a row of parameters are asked for one by one. -/
theorem parameterNames_given {plan : FormatPlan} {source : NameSource}
    (h : plan.names = .given source) (field : Value) (asked : List Value) (count : Nat) :
    parameterNames plan field asked count =
      source.namesFor asked (List.replicate count field) := by
  unfold parameterNames
  rw [h]
  cases count <;> rfl

/-- The names of the parameters of a rule. -/
theorem parameterNames_perField (hnames : plan.names = .given perField) (name : String)
    (before : List Slot) (values : List Value) :
    parameterNames plan (.text name) (askedFields before) values.length =
      .ok (along slotName before (values.map (Slot.mk name))) := by
  rw [parameterNames_given hnames, ← namesFor_slots, List.map_map]
  exact congrArg (perField.namesFor _) List.map_const'.symm

/-- A rule gets the placeholders that its parameters get, given those before it,
and binds them. -/
theorem boundRule_plan (hnames : b = .named → plan.names = .given perField)
    (hfield : b = .named → ∃ name, r.field = .text name) {c : Skeleton}
    (hc : ruleSkeleton (b.plan plan) r = .ok c) (before : List Slot) (path : Path)
    (field : Option Field) :
    boundRule (b.plan plan) r (some ⟨path, before.length, field⟩)
        (b.bindings plan.style before).asked =
      .ok (⟨.text (c.render (along (b.mark plan.style) before
            (c.params.map (Slot.mk r.field.display)))),
          b.params plan.style before (c.params.map (Slot.mk r.field.display))⟩,
        (b.bindings plan.style (before ++ c.params.map (Slot.mk r.field.display))).asked) := by
  have hlength : c.params.length = (c.params.map (Slot.mk r.field.display)).length := by simp
  have hvalues : (c.params.map (Slot.mk r.field.display)).map (·.value) = c.params := by
    simp [Function.comp_def]
  rw [boundRule, hc, Result.ok_bind]
  cases b with
  | unnumbered | numbered =>
    simp only [Binding.params, Binding.bindings, hvalues]
    rw [← positionalMarks_plan _ rfl, ← hlength]
    rfl
  | named =>
    obtain ⟨name, hfield⟩ := hfield rfl
    have hdisplay : r.field.display = name := by rw [hfield, Value.display_text]
    rw [hdisplay] at hvalues ⊢
    have hnames' : parameterNames (Binding.named.plan plan) r.field
        (Binding.named.bindings plan.style before).asked c.params.length =
          .ok (along slotName before (c.params.map (Slot.mk name))) := by
      rw [hfield]
      exact parameterNames_perField (hnames rfl) name before c.params
    have hposition : bindsByPosition (Binding.named.plan plan).style = false := rfl
    have hfold := Binding.foldl_insert_entries plan.style before (c.params.map (Slot.mk name))
    rw [hvalues] at hfold
    have hasked : List.replicate c.params.length (Value.text name) ++ askedFields before =
        askedFields (before ++ c.params.map (Slot.mk name)) := by
      simp [askedFields, Function.comp_def]
    simp only [hposition, hnames', Result.ok_bind]
    have hmarks := Binding.along_named plan.style before (c.params.map (Slot.mk name))
    refine congrArg Except.ok (Prod.ext (congrArg₂ BoundSql.mk ?_ ?_) ?_)
    · exact congrArg (fun marks => Value.text (c.render marks)) hmarks.symm
    · exact congrArg Value.map hfold
    · exact (congrArg (List.replicate _ · ++ _) hfield).trans hasked

theorem collect_list (sql : Value) (values : List Value) (bindings : Bindings) :
    collect ⟨sql, .list values⟩ bindings = .ok (sql, { bindings with
      params := bindings.params ++ values, count := bindings.count + values.length }) := rfl

theorem collect_map (sql : Value) {entries named : List (String × Value)} {bindings : Bindings}
    (h : bindNamed bindings.named entries = .ok named) :
    collect ⟨sql, .map entries⟩ bindings = .ok (sql, { bindings with
      named := named, count := bindings.count + entries.length }) := by
  unfold collect
  rw [Write.get_bind]
  dsimp only
  rw [Write.lift_bind, h]
  rfl

/-- What a rule binds is added to what has been bound. -/
theorem collect_params (style : Style) (before slots : List Slot) (sql : Value) :
    collect ⟨sql, b.params style before slots⟩
        { b.bindings style before with asked := (b.bindings style (before ++ slots)).asked } =
      .ok (sql, b.bindings style (before ++ slots)) := by
  cases b with
  | unnumbered | numbered =>
    refine (collect_list sql _ _).trans ?_
    simp [Binding.bindings]
  | named =>
    have hentries := Binding.entries_append style [] before slots
    rw [List.nil_append] at hentries
    have hbind : bindNamed (Binding.entries style [] before) (Binding.entries style before slots) =
        .ok (Binding.entries style [] (before ++ slots)) := by
      rw [hentries]
      exact bindNamed_of_nodup (hentries ▸ Binding.nodup_keys style [] (before ++ slots))
    refine (collect_map sql hbind).trans ?_
    simp [Binding.bindings, Binding.entries]

theorem write_bound (dialect : Dialect) (r : Rule) (plan : FormatPlan)
    (context : Option RuleContext) (bindings : Bindings) :
    (boundWriter dialect).write plan r context bindings = (do
      let (clause, asked) ← boundRule plan r context bindings.asked
      collect clause { bindings with asked := asked }) :=
  (Write.get_bind _ _).trans (Write.lift_bind _ _ _)

/-- What is written for a rule, and what has been bound then. -/
theorem write_of_skeleton (hnames : b = .named → plan.names = .given perField)
    (hfield : b = .named → ∃ name, r.field = .text name) {c : Skeleton}
    (hc : ruleSkeleton (b.plan plan) r = .ok c) (before : List Slot) (path : Path)
    (field : Option Field) :
    (boundWriter b.dialect).write (b.plan plan) r (some ⟨path, before.length, field⟩)
        (b.bindings plan.style before) =
      .ok (.text (c.render (along (b.mark plan.style) before
          (c.params.map (Slot.mk r.field.display)))),
        b.bindings plan.style (before ++ c.params.map (Slot.mk r.field.display))) := by
  rw [write_bound, boundRule_plan b hnames hfield hc before path field]
  exact collect_params b plan.style before _ _

/-- A rule is written as its draft is filled. -/
theorem write_plan (hnames : b = .named → plan.names = .given perField)
    (hhook : plan.valueHook = .absent) {op : Operator} (hop : r.operator? = some op)
    (hfield : b = .named → ∃ name, r.field = .text name) (before : List Slot) (path : Path)
    (field : Option Field) (context : Option RuleContext) :
    Writer.Abreast (fun _ => {}) (b.bindings plan.style) SameFault
      (Fills (b.mark plan.style) before)
      (draftWriter.write (Binding.unnumbered.plan plan) r context {})
      ((boundWriter b.dialect).write (b.plan plan) r (some ⟨path, before.length, field⟩)
        (b.bindings plan.style before)) := by
  have hdraft := ruleSkeleton_plan .unnumbered hop hhook
  have hbound := ruleSkeleton_plan b hop hhook
  rw [write_draft, hdraft]
  cases hvalue : valueText r plan.style with
  | error e =>
    rw [write_bound, boundRule, hbound, hvalue]
    exact .error rfl
  | ok s =>
    rw [hvalue] at hbound
    rw [write_of_skeleton b hnames hfield hbound before path field]
    exact .ok (fills_ofPieces (b.isMark_mark plan.style) before r.field.display
      isTrimmable_skeletonOf)

/-- A rule is refused by all ways to bind, or written as its draft is filled. -/
theorem writeRule_plan (hnames : b = .named → plan.names = .given perField)
    (hvalueHook : plan.valueHook = .absent) (hruleHook : plan.ruleHook = .absent)
    (hfield : b = .named → ∃ name, r.field = .text name) (before : List Slot) (path : Path) :
    Writer.Abreast (fun _ => {}) (b.bindings plan.style) SameFault
      (Fills (b.mark plan.style) before)
      (draftWriter.writeRule (Binding.unnumbered.plan plan) path r {})
      ((boundWriter b.dialect).writeRule (b.plan plan) path r (b.bindings plan.style before)) := by
  have hrefl : ∀ e, SameFault e e := fun _ => rfl
  have hcount : (b.bindings plan.style before).count = before.length := by cases b <;> rfl
  have hrule (b : Binding) : (b.plan plan).ruleHook = .absent := hruleHook
  rw [Writer.writeRule_apply _ (hrule b), Writer.writeRule_apply _ (hrule .unnumbered), hcount]
  refine .after hrefl fun field _ => ?_
  rw [forField_plan, forField_plan]
  cases hop : r.operator? with
  | none =>
    rw [Writer.canExpress_of_none hop, Writer.canExpress_of_none hop]
    exact .error rfl
  | some op =>
    have hsupports : (boundWriter b.dialect).dialect.supports op = true := by cases b <;> rfl
    have hdraft : draftWriter.dialect.supports op = true := rfl
    rw [Writer.canExpress_of_supports hop hdraft, Writer.canExpress_of_supports hop hsupports]
    cases hplan : plan.forField field with
    | error e => exact .error rfl
    | ok plan' =>
      obtain ⟨policy, rfl⟩ := FormatPlan.eq_of_forField hplan
      have hnames' : b = .named → ({ plan with style := { plan.style with policy := policy } } :
        FormatPlan).names = .given perField := hnames
      exact write_plan b hnames' hvalueHook hop hfield before path field
        (some ⟨path, ({} : Bindings).count, field⟩)

end

/-- **Three ways, one draft.**  Whichever way its parameters are bound, a tree is
written in lockstep with its draft.  Names are asked for under the texts of fields. -/
theorem lockstep (b : Binding) {plan : FormatPlan}
    (hnames : b = .named → plan.names = .given perField) (hvalueHook : plan.valueHook = .absent)
    (hruleHook : plan.ruleHook = .absent) :
    Writer.Lockstep draftWriter (Binding.unnumbered.plan plan) (boundWriter b.dialect) (b.plan plan)
      (fun _ => {}) (b.bindings plan.style) SameFault (Fills (b.mark plan.style))
      (fun r => b = .named → ∃ name, r.field = .text name) :=
  lockstep_of_rules (b.isMark_mark plan.style) rfl (fun _ _ _ _ => rfl)
    fun hfield before path => writeRule_plan b hnames hvalueHook hruleHook hfield before path

end Sql
end RuleTree
