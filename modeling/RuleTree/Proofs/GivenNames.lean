import Mathlib.Data.List.Nodup
import RuleTree.Proofs.Inlining
import RuleTree.Proofs.Translation

/-! # Names of the caller

A caller may name parameters.  A rule asks for a name for each of its values, and is
written with the names behind colons (`Sql.namedAs_of_writeRule`).  Its values are
first put into a map of its own, where a name that the rule gets twice has the last of
its values, and the map is then added to what the rules before have bound, which is
refused if a name is bound already.  So rules one after another are written exactly if
each gets its names and no two of them share one (`Sql.exists_writeRules`,
`Sql.exists_writeRules_eq_error`).
-/
namespace RuleTree

/-! ### Placeholders -/

namespace Text

/-- A text before one that starts with no blank loses its leading blanks. -/
theorem trim_append_of_isStart {s t : String} (hs : ∃ c ∈ s.toList, isBlank c = false)
    (ht : IsStart t) : trim (s ++ t) = String.ofList (trimStart s.toList) ++ trim t := by
  obtain ⟨c, cs, ht, hblank⟩ := ht
  have hstart : trimStart t.toList = t.toList := by
    rw [ht, trimStart, List.dropWhile_cons_of_neg (by simp [hblank])]
  rw [trim_append_of_not_blank hs ⟨c, ht ▸ List.mem_cons_self, hblank⟩, trim, trimBoth, hstart]

end Text

namespace Sql
open NameSource

/-- A placeholder with a name: it stands behind a colon, with or without the blanks at its
end. -/
def Placed (name mark : String) : Prop := mark = ":" ++ name ∨ mark = Text.trim (":" ++ name)

theorem isStart_colon (name : String) : Text.IsStart (":" ++ name) :=
  .append ⟨':', [], rfl, by decide⟩ name

theorem Placed.ne_empty {name mark : String} (h : Placed name mark) : mark ≠ "" := by
  obtain ⟨c, cs, hstart, hblank⟩ := isStart_colon name
  rcases h with rfl | rfl
  · intro h
    rw [h] at hstart
    cases hstart
  · intro h
    have hnil : Text.trimBoth (":" ++ name).toList = [] := by
      rw [← String.toList_ofList (l := Text.trimBoth _)]
      exact congrArg String.toList h
    rw [hstart] at hnil
    exact Text.trimBoth_ne_nil hblank cs hnil

/-- A rule is written with a placeholder for each name. -/
theorem exists_placed {c : Skeleton} (h : c.trimmed = true → Skeleton.IsTrimmable c.pieces)
    {names : List String} (hlength : names.length = c.params.length) :
    ∃ marks, List.Forall₂ Placed names marks ∧
      c.render (names.map (":" ++ ·)) = Skeleton.fill c.settled marks := by
  have hplaced : List.Forall₂ Placed names (names.map (":" ++ ·)) :=
    List.forall₂_map_right_iff.mpr (List.forall₂_same.mpr fun _ _ => .inl rfl)
  obtain ⟨pieces, trimmed⟩ := c
  cases trimmed with
  | false => exact ⟨_, hplaced, rfl⟩
  | true =>
    -- with the outer blanks of the condition its one placeholder loses those at its end
    obtain s | ⟨v, hs⟩ := h rfl
    · obtain rfl := List.length_eq_zero_iff.mp hlength
      exact ⟨[], .nil, by simp [Skeleton.render, Skeleton.settled, Skeleton.fill]⟩
    · obtain ⟨name, rfl⟩ := List.length_eq_one_iff.mp hlength
      refine ⟨[Text.trim (":" ++ name)], .cons (.inr rfl) .nil, ?_⟩
      simp [Skeleton.render, Skeleton.settled, Skeleton.fill,
        Text.trim_append_of_isStart hs (isStart_colon name)]

/-! ### Rules -/

/-- A plan for parameters that the caller names. -/
def namedBy (source : NameSource) : FormatPlan :=
  { style := { format := .dialect .parameterizedNamed }, names := .given source }

/-- A plan for parameters that have no placeholders yet. -/
def draftPlan : FormatPlan := Binding.unnumbered.plan (namedPerField (.usual .parameterized))

theorem isUsual_namedBy (source : NameSource) : (namedBy source).IsUsual :=
  ⟨⟨.parameterizedNamed, rfl, by decide⟩, rfl, rfl, rfl, rfl, rfl⟩

theorem isUsual_draftPlan : draftPlan.IsUsual :=
  ⟨⟨.parameterized, rfl, by decide⟩, rfl, rfl, rfl, rfl, rfl⟩

/-- The values that a rule binds, in order. -/
def paramsOf (r : Rule) : List Value :=
  match ruleSkeleton draftPlan r with
  | .ok c => c.params
  | .error _ => []

/-- The values that rules bind, in order. -/
def valuesOf (rules : List Rule) : List Value := rules.flatMap paramsOf

/-- The fields that names are asked for, one for each value. -/
def fieldsOf (rules : List Rule) : List Value :=
  rules.flatMap fun r => List.replicate (paramsOf r).length r.field

theorem length_fieldsOf (rules : List Rule) :
    (fieldsOf rules).length = (valuesOf rules).length := by
  simp [fieldsOf, valuesOf, List.length_flatMap]

theorem length_of_namesFor_fieldsOf {source : NameSource} {asked : List Value}
    {rules : List Rule} {names : List String}
    (h : source.namesFor asked (fieldsOf rules) = .ok names) :
    names.length = (valuesOf rules).length := by
  rw [length_of_namesFor h, length_fieldsOf]

@[simp] theorem fieldsOf_append (rules more : List Rule) :
    fieldsOf (rules ++ more) = fieldsOf rules ++ fieldsOf more := List.flatMap_append

@[simp] theorem valuesOf_append (rules more : List Rule) :
    valuesOf (rules ++ more) = valuesOf rules ++ valuesOf more := List.flatMap_append

/-- A rule with an operator has the same pieces, whoever names its parameters. -/
theorem exists_skeleton {r : Rule} {op : Operator} (hop : r.operator? = some op)
    (source : NameSource) :
    ∃ c, ruleSkeleton draftPlan r = .ok c ∧ ruleSkeleton (namedBy source) r = .ok c ∧
      c.params = paramsOf r ∧ (c.trimmed = true → Skeleton.IsTrimmable c.pieces) := by
  let style : Style := { format := .dialect .parameterized }
  obtain ⟨s, hs, -⟩ := Result.Ends.exists_eq_ok
    (failsOnly_valueText (show style.concat.requireText.FailsOnly _ from trivial) r)
  let positional : FormatPlan := namedPerField (.usual .parameterized)
  let named : FormatPlan := { style := style, names := .given source }
  have hdraft := ruleSkeleton_plan .unnumbered hop (show positional.valueHook = .absent from rfl)
  have hgiven := ruleSkeleton_plan .named hop (show named.valueHook = .absent from rfl)
  rw [show valueText r positional.style = .ok s from hs] at hdraft
  rw [show valueText r named.style = .ok s from hs] at hgiven
  have hparams : paramsOf r =
      (skeletonOf style op (Dialect.sqlSpelling op) r (.text s)).params := by
    rw [paramsOf, draftPlan, hdraft]
    rfl
  exact ⟨_, hdraft, hgiven, hparams.symm, isTrimmable_skeletonOf⟩

/-- The entries of a rule: its values under its names, the last value under a name that comes
again. -/
def entriesOf (names : List String) (values : List Value) : List (String × Value) :=
  (names.zip values).foldl (fun m e => Value.insert e.1 e.2 m) []

theorem entriesOf_of_nodup {names : List String} {values : List Value}
    (hlength : names.length = values.length) (h : names.Nodup) :
    entriesOf names values = names.zip values := by
  have hkeys : (([] ++ names.zip values).map Prod.fst).Nodup := by
    rwa [List.nil_append, List.map_fst_zip (Nat.le_of_eq hlength)]
  exact Value.foldl_insert hkeys

theorem nodup_keys_entriesOf (names : List String) (values : List Value) :
    ((entriesOf names values).map Prod.fst).Nodup :=
  Value.nodup_keys_foldl_insert (show (([] : List (String × Value)).map _).Nodup from .nil) _

theorem mem_keys_entriesOf {names : List String} {values : List Value}
    (hlength : names.length = values.length) {name : String} :
    name ∈ (entriesOf names values).map Prod.fst ↔ name ∈ names := by
  rw [entriesOf, Value.mem_keys_foldl_insert, List.map_fst_zip (Nat.le_of_eq hlength)]
  simp

/-- Entries may be bound if none of their names is bound already. -/
theorem nodup_bound_iff {bound : List (String × Value)} (hbound : (bound.map Prod.fst).Nodup)
    {names : List String} {values : List Value} (hlength : names.length = values.length) :
    ((bound ++ entriesOf names values).map Prod.fst).Nodup ↔
      List.Disjoint (bound.map Prod.fst) names := by
  rw [List.map_append, List.nodup_append', and_iff_right hbound,
    and_iff_right (nodup_keys_entriesOf names values)]
  simp only [List.Disjoint, mem_keys_entriesOf hlength]

/-- The bindings after those of a rule. -/
def bindRow (s : Bindings) (names : List String) (r : Rule) : Bindings :=
  { s with
    named := s.named ++ entriesOf names (valuesOf [r])
    count := s.count + (entriesOf names (valuesOf [r])).length
    asked := (fieldsOf [r]).reverse ++ s.asked }

theorem asked_bindRow (s : Bindings) (names : List String) (r : Rule) :
    (bindRow s names r).asked = (fieldsOf [r]).reverse ++ s.asked := rfl

/-- What is bound by names leaves the text of a rule and the fields asked for alone. -/
theorem eq_of_collect_map {sql out : Value} {entries : List (String × Value)} {s s' : Bindings}
    (h : collect ⟨sql, .map entries⟩ s = .ok (out, s')) : out = sql ∧ s'.asked = s.asked := by
  unfold collect at h
  rw [Write.get_bind] at h
  dsimp only at h
  rw [Write.lift_bind] at h
  obtain ⟨named, -, h⟩ := Result.bind_eq_ok h
  cases h
  exact ⟨rfl, rfl⟩

/-- A condition is a draft with placeholders for the names. -/
def NamedAs (names : List String) (values : List Value) (d : Draft) (sql : Value) : Prop :=
  ∃ marks, List.Forall₂ Placed names marks ∧ marks.length = d.slots.length ∧
    d.slots.map Slot.value = values ∧ sql = .text (d.fill marks)

section
variable {source : NameSource} {r : Rule} {op : Operator} (hop : r.operator? = some op)
include hop

/-- A rule asks for a name for each of its values, and binds the values under the names. -/
theorem writeRule_namedBy {c : Skeleton} (hc : ruleSkeleton (namedBy source) r = .ok c)
    (hparams : c.params = paramsOf r) (path : Path) (s : Bindings) :
    (boundWriter .parameterizedNamed).writeRule (namedBy source) path r s = (do
      let names ← source.namesFor s.asked (fieldsOf [r])
      collect ⟨.text (c.render (names.map (":" ++ ·))), .map (entriesOf names (valuesOf [r]))⟩
        { s with asked := (fieldsOf [r]).reverse ++ s.asked }) := by
  have hposition : bindsByPosition (namedBy source).style = false := rfl
  have hfields : fieldsOf [r] = List.replicate c.params.length r.field := by
    simp [fieldsOf, hparams]
  have hvalues : valuesOf [r] = c.params := by simp [valuesOf, hparams]
  rw [Writer.writeRule_of_isUsual (by decide) (isUsual_namedBy source) hop, write_bound, boundRule,
    hc, Result.ok_bind]
  simp only [hposition, Bool.false_eq_true, if_false]
  rw [parameterNames_given (show (namedBy source).names = .given source from rfl), hfields,
    hvalues, List.reverse_replicate]
  cases source.namesFor s.asked (List.replicate c.params.length r.field) <;> rfl

variable (source) in
/-- A rule that is written is its draft with placeholders for its names. -/
theorem namedAs_of_writeRule (path : Path) :
    ∃ d, draftWriter.writeRule draftPlan path r {} = .ok (d, {}) ∧
      ∀ {s s' sql}, (boundWriter .parameterizedNamed).writeRule (namedBy source) path r s =
          .ok (sql, s') →
        ∃ names, source.namesFor s.asked (fieldsOf [r]) = .ok names ∧
          s'.asked = (fieldsOf [r]).reverse ++ s.asked ∧ NamedAs names (valuesOf [r]) d sql := by
  obtain ⟨c, hdraft, hgiven, hparams, htrimmable⟩ := exists_skeleton hop source
  have hvalues : valuesOf [r] = c.params := by simp [valuesOf, hparams]
  have hslots : (Draft.ofPieces r.field.display c.settled).slots.map Slot.value = valuesOf [r] := by
    rw [hvalues, ← c.params_settled htrimmable,
      Draft.slots_ofPieces r.field.display ⟨c.settled, false⟩]
    simp [Function.comp_def]
  refine ⟨Draft.ofPieces r.field.display c.settled, ?_, fun {s s' sql} hwrite => ?_⟩
  · rw [Writer.writeRule_of_isUsual (by decide) isUsual_draftPlan hop, write_draft, hdraft]
    rfl
  · rw [writeRule_namedBy hop hgiven hparams] at hwrite
    obtain ⟨names, hnames, hwrite⟩ := Result.bind_eq_ok hwrite
    obtain ⟨rfl, hasked⟩ := eq_of_collect_map hwrite
    have hlength := length_of_namesFor_fieldsOf hnames
    obtain ⟨marks, hplaced, hrender⟩ := exists_placed htrimmable (hvalues ▸ hlength)
    refine ⟨names, hnames, hasked, marks, hplaced, ?_, hslots, ?_⟩
    · rw [← hplaced.length_eq, hlength, ← hslots, List.length_map]
    · rw [hrender, Draft.fill_ofPieces]

section
variable {s : Bindings} {names : List String}
  (hnames : source.namesFor s.asked (fieldsOf [r]) = .ok names)
  (hbound : (s.named.map Prod.fst).Nodup)
include hnames hbound

/-- Under names of which none is bound already, a rule binds its entries. -/
theorem exists_writeRule (h : List.Disjoint (s.named.map Prod.fst) names) (path : Path) :
    ∃ sql, (boundWriter .parameterizedNamed).writeRule (namedBy source) path r s =
      .ok (sql, bindRow s names r) := by
  obtain ⟨c, -, hgiven, hparams, -⟩ := exists_skeleton hop source
  let asking : Bindings := { s with asked := (fieldsOf [r]).reverse ++ s.asked }
  have hbind : bindNamed asking.named (entriesOf names (valuesOf [r])) =
      .ok (s.named ++ entriesOf names (valuesOf [r])) :=
    bindNamed_of_nodup ((nodup_bound_iff hbound (length_of_namesFor_fieldsOf hnames)).mpr h)
  refine ⟨.text (c.render (names.map (":" ++ ·))), ?_⟩
  rw [writeRule_namedBy hop hgiven hparams, hnames, Result.ok_bind]
  exact collect_map _ hbind

/-- With a name that is bound already it is refused. -/
theorem writeRule_of_not_disjoint (h : ¬List.Disjoint (s.named.map Prod.fst) names)
    (path : Path) :
    ∃ name, (boundWriter .parameterizedNamed).writeRule (namedBy source) path r s =
      .error (.invalidOption (.duplicateParameter name)) := by
  obtain ⟨c, -, hgiven, hparams, -⟩ := exists_skeleton hop source
  obtain ⟨name, herror⟩ := bindNamed_of_not_nodup hbound
    (mt (nodup_bound_iff hbound (length_of_namesFor_fieldsOf hnames)).mp h)
  refine ⟨name, ?_⟩
  rw [writeRule_namedBy hop hgiven hparams, hnames, Result.ok_bind, collect, Write.get_bind]
  dsimp only
  rw [Write.lift_bind, herror]
  rfl

end

end

/-! ### Rows of rules -/

/-- The names of the values of rules, rule by rule, each asked for after those before it. -/
def rowsFor (source : NameSource) : List Value → List Rule → Result (List (List String))
  | _, [] => .ok []
  | asked, r :: rules => do
    let names ← source.namesFor asked (fieldsOf [r])
    return names :: (← rowsFor source ((fieldsOf [r]).reverse ++ asked) rules)

section
variable {source : NameSource}

/-- The names of rules are those of one rule after another. -/
theorem namesFor_fieldsOf (source : NameSource) (asked : List Value) (rules : List Rule) :
    source.namesFor asked (fieldsOf rules) = (rowsFor source asked rules).map List.flatten := by
  induction rules generalizing asked with
  | nil => rfl
  | cons r rules ih =>
    have hfields : fieldsOf (r :: rules) = fieldsOf [r] ++ fieldsOf rules :=
      fieldsOf_append [r] rules
    rw [hfields, namesFor_append, rowsFor, ih, Result.map_bind]
    refine Result.bind_congr fun names _ => ?_
    cases rowsFor source ((fieldsOf [r]).reverse ++ asked) rules <;> rfl

/-- The names of a rule are apart from those bound before, and together with them from those of
the rules behind it. -/
theorem pairwise_disjoint_bindRow {s : Bindings} {names : List String} {r : Rule}
    (hlength : names.length = (valuesOf [r]).length) {rows : List (List String)} :
    ((s.named.map Prod.fst) :: names :: rows).Pairwise List.Disjoint ↔
      List.Disjoint (s.named.map Prod.fst) names ∧
        (((bindRow s names r).named.map Prod.fst) :: rows).Pairwise List.Disjoint := by
  -- what is bound behind the rule are the keys before it and its names, each name once
  have hkeys : ∀ row : List String, List.Disjoint ((bindRow s names r).named.map Prod.fst) row ↔
      List.Disjoint (s.named.map Prod.fst) row ∧ List.Disjoint names row := fun row => by
    rw [bindRow, List.map_append, List.disjoint_append_left]
    exact and_congr_right fun _ => by simp only [List.Disjoint, mem_keys_entriesOf hlength]
  simp only [List.pairwise_cons, List.forall_mem_cons, hkeys, forall_and]
  tauto

/-- **Rules, written.**  Rules that share no names are written one after another, and bind
all their values if no rule has a name twice. -/
theorem exists_writeRules {rules : List (Path × Rule)} {s : Bindings} {rows : List (List String)}
    (hops : ∀ e ∈ rules, ∃ op, e.2.operator? = some op)
    (hbound : (s.named.map Prod.fst).Nodup)
    (hrows : rowsFor source s.asked (rules.map Prod.snd) = .ok rows)
    (h : ((s.named.map Prod.fst) :: rows).Pairwise List.Disjoint) :
    ∃ s', (boundWriter .parameterizedNamed).writeRules (namedBy source) rules s = .ok s' ∧
      ((∀ names ∈ rows, names.Nodup) →
        s'.named = s.named ++ rows.flatten.zip (valuesOf (rules.map Prod.snd))) := by
  induction rules generalizing s rows with
  | nil =>
    obtain rfl := Except.ok.inj hrows
    exact ⟨s, rfl, fun _ => (List.append_nil _).symm⟩
  | cons e rules ih =>
    obtain ⟨path, r⟩ := e
    obtain ⟨⟨op, hop⟩, hops⟩ := List.forall_mem_cons.mp hops
    obtain ⟨names, hnames, hrows⟩ := Result.bind_eq_ok hrows
    obtain ⟨rest, hrest, hrows⟩ := Result.bind_eq_ok hrows
    obtain rfl := Except.ok.inj hrows
    have hlength := length_of_namesFor_fieldsOf hnames
    obtain ⟨hdisjoint, h⟩ := (pairwise_disjoint_bindRow hlength).mp h
    obtain ⟨sql, hwrite⟩ := exists_writeRule hop hnames hbound hdisjoint path
    obtain ⟨s', hwrites, hnamed⟩ := ih (s := bindRow s names r) hops
      ((nodup_bound_iff hbound hlength).mpr hdisjoint) hrest h
    refine ⟨s', ?_, fun hnodup => ?_⟩
    · rw [Writer.writeRules, List.foldlM_cons, hwrite]
      exact hwrites
    · obtain ⟨hfirst, hnodup⟩ := List.forall_mem_cons.mp hnodup
      have hvalues : valuesOf (((path, r) :: rules).map Prod.snd) =
          valuesOf [r] ++ valuesOf (rules.map Prod.snd) := valuesOf_append [r] _
      rw [hnamed hnodup, hvalues, List.flatten_cons, List.zip_append hlength, bindRow,
        entriesOf_of_nodup hlength hfirst, List.append_assoc]

/-- The error of a callback for rules, or that of a name that is bound already. -/
def NamesRefused (source : NameSource) (asked : List Value) (rules : List Rule) (e : Error) :
    Prop :=
  rowsFor source asked rules = .error e ∨ ∃ name, e = .invalidOption (.duplicateParameter name)

/-- **Rules, refused.**  Rules of which one does not get its names, or two share one, are
refused one after another. -/
theorem exists_writeRules_eq_error {rules : List (Path × Rule)} {s : Bindings}
    (hops : ∀ e ∈ rules, ∃ op, e.2.operator? = some op)
    (hbound : (s.named.map Prod.fst).Nodup)
    (h : ∀ rows, rowsFor source s.asked (rules.map Prod.snd) = .ok rows →
      ¬((s.named.map Prod.fst) :: rows).Pairwise List.Disjoint) :
    ∃ e, (boundWriter .parameterizedNamed).writeRules (namedBy source) rules s = .error e ∧
      NamesRefused source s.asked (rules.map Prod.snd) e := by
  induction rules generalizing s with
  | nil => exact absurd (List.pairwise_singleton _ _) (h [] rfl)
  | cons e rules ih =>
    obtain ⟨path, r⟩ := e
    obtain ⟨⟨op, hop⟩, hops⟩ := List.forall_mem_cons.mp hops
    -- the first rule may fail for its callback, for a name bound before, or leave it to the rest
    rw [List.map_cons, rowsFor] at h
    unfold NamesRefused
    rw [List.map_cons, rowsFor, Writer.writeRules, List.foldlM_cons]
    dsimp only at hop h ⊢
    cases hnames : source.namesFor s.asked (fieldsOf [r]) with
    | error e =>
      obtain ⟨c, -, hgiven, hparams, -⟩ := exists_skeleton hop source
      refine ⟨e, ?_, .inl rfl⟩
      rw [writeRule_namedBy hop hgiven hparams, hnames]
      rfl
    | ok names =>
      have hlength := length_of_namesFor_fieldsOf hnames
      by_cases hdisjoint : List.Disjoint (s.named.map Prod.fst) names
      · obtain ⟨sql, hwrite⟩ := exists_writeRule hop hnames hbound hdisjoint path
        obtain ⟨e, herror, hrefused⟩ := ih (s := bindRow s names r) hops
          ((nodup_bound_iff hbound hlength).mpr hdisjoint) fun rows hrows hpairwise => by
            rw [asked_bindRow] at hrows
            exact h (names :: rows) (by rw [hnames, Result.ok_bind, hrows]; rfl)
              ((pairwise_disjoint_bindRow hlength).mpr ⟨hdisjoint, hpairwise⟩)
        refine ⟨e, ?_, hrefused.imp_left fun hnone => ?_⟩
        · rw [hwrite]
          exact herror
        · rw [asked_bindRow] at hnone
          rw [Result.ok_bind, hnone]
          rfl
      · obtain ⟨name, herror⟩ := writeRule_of_not_disjoint hop hnames hbound hdisjoint path
        exact ⟨_, by rw [herror]; rfl, .inr ⟨name, rfl⟩⟩

end

end Sql
end RuleTree
