import RuleTree.Proofs.WrittenNames

/-! # Fields that writing and reading share

With configured fields a tree is written only if they have the field of every rule, and a
source is read only if they have every field that it names.  The two checks agree on rules
that compare a field with literals.  Writing does not look at the fields that a rule is
compared with, though, which reading does: what is written is read with the same fields if
they have those too, as well as names that stay what they are (`Query.parse_of_format`), and
may be refused otherwise (`Query.parse_of_format_unchecked`).
-/
namespace RuleTree

/-- What a dialect that is both written and read tells apart. -/
def Dialect.repertoire? : Dialect → Option Repertoire
  | .sql => some Sql.repertoire
  | .cel => some Cel.repertoire
  | .spel => some Spel.repertoire
  | .mongodb => some Mongo.repertoire
  | .jsonlogic => some JsonLogic.repertoire
  | _ => none

/-- Options that say nothing but the dialect and the fields come to a plan with them. -/
theorem FormatOptions.resolve_configured (d : Dialect) {fields : FieldsInput} {table : FieldTable}
    (htable : FieldTable.ofInput fields = .ok table) :
    ({ format := .text d.name, fields := fields } : FormatOptions).resolve =
      .ok (.configured table .never d) := by
  cases d <;> simp only [resolve, htable] <;> rfl

namespace Query

/-- What is read of a value that is written is the value. -/
theorem Source.eq_of_ofOutput {plan : FormatPlan} {query : Node} {v : Value} {source : Source}
    (h : Source.ofOutput plan query (.value v) = .ok source) :
    source = .value v ∨ source = .foreign v := by
  unfold Source.ofOutput at h
  dsimp only at h
  split at h
  · obtain ⟨tree, -, h⟩ := Result.bind_eq_ok h
    obtain ⟨foreign, -, h⟩ := Result.bind_eq_ok h
    split at h
    · exact .inr (Except.ok.inj h).symm
    · exact .inl (Except.ok.inj h).symm
  · exact .inl (Except.ok.inj h).symm

/-- The reader is given the value that was written, where it gives a tree. -/
theorem read_of_readSource {name : String} {read : Reader} {v : Value} {source : Source}
    (hsource : source = .value v ∨ source = .foreign v) {plan : ParsePlan} {t : Node}
    (h : readSource (name, read) source plan = .ok t) : read plan v = .ok t := by
  rcases hsource with rfl | rfl
  · exact h
  · rw [readSource] at h
    split at h
    · cases h
    · exact h

section
variable {w : Writer Value} {d : Dialect} {traits : SourceTraits} {rep : Repertoire}
  {e : Echo w d traits rep} {Known : Value → Prop} {read : Reader}
  {fields : FieldsInput} {table : FieldTable} {t root back : Node} {output : Output}
  {source : Source}

/-- What is written of a tree whose rules are clear is read with the same fields, in a
dialect that carries the rules over. -/
theorem parse_of_carries (h : e.Carries Known)
    (hreader : reader (.text d.name) = .ok (d.name, read))
    (hread : ∀ v, read .arrays v = (e.whole v).bind (Clause.toTree traits .arrays))
    (hwrite : write d (.configured table .never d) t =
      (w.run (.configured table .never d) t).map fun output => .value (output.1.getD e.always))
    (htable : FieldTable.ofInput fields = .ok table) (hsome : table ≠ [])
    (ht : t.IsTree) (hroot : t.standardRoot = .ok root)
    (hknown : ∀ combinator ∈ root.combinators, Known combinator)
    (hrules : ∀ r ∈ root.liveRules, ∃ op, r.2.IsClear d rep table op)
    (hformat : format { format := .text d.name, fields := fields } t = .ok output)
    (hsource : Source.ofOutput (.configured table .never d) t output = .ok source)
    (hback : parse source (.text d.name) .defaults [] = .ok back) :
    parse source (.text d.name) .defaults [("fields", .fields fields)] = .ok back := by
  rw [format_eq_write (FormatOptions.resolve_configured d htable) rfl ht, hwrite] at hformat
  obtain ⟨⟨out, bindings⟩, hrun, rfl⟩ := Result.map_eq_ok hformat
  obtain ⟨whole, hwhole, -⟩ :=
    parse_withFields (o := {}) rfl rfl hback htable hsome
  have hvalue : read .arrays (out.getD e.always) = .ok whole :=
    read_of_readSource (Source.eq_of_ofOutput hsource)
      ((parse_eq_readSource hreader rfl rfl).symm.trans hwhole)
  exact parse_withFields_of_within hback hwhole htable hsome
    (h.within_of_run hsome ht hroot hknown hrules hrun ((hread _).symm.trans hvalue))

end

/-- **Shared fields.**  What is written of a tree with configured fields is read with the same
fields as without any, if it is read at all: in every dialect that is both written and read,
for rules that a dialect writes as they are meant and that are compared with configured
fields alone.  A rule whose field is not configured is not written at all. -/
theorem parse_of_format {d : Dialect} {rep : Repertoire} (hd : d.repertoire? = some rep)
    {fields : FieldsInput} {table : FieldTable} (htable : FieldTable.ofInput fields = .ok table)
    (hsome : table ≠ []) {t root : Node} (ht : t.IsTree) (hroot : t.standardRoot = .ok root)
    (hjunctions : d = .sql →
      ∀ combinator ∈ root.combinators, ∃ j : Junction, combinator = .text j.name)
    (hrules : ∀ r ∈ root.liveRules, ∃ op, r.2.IsClear d rep table op) {output : Output}
    (hformat : format { format := .text d.name, fields := fields } t = .ok output)
    {source : Source}
    (hsource : Source.ofOutput (.configured table .never d) t output = .ok source)
    {back : Node} (hback : parse source (.text d.name) .defaults [] = .ok back) :
    parse source (.text d.name) .defaults [("fields", .fields fields)] = .ok back := by
  cases d with
  | sql =>
    obtain rfl := Option.some.inj hd
    refine parse_of_carries Sql.carries rfl (fun _ => rfl) ?_ htable hsome ht hroot
      (hjunctions rfl) hrules hformat hsource hback
    rw [write, Sql.plain, Writer.within_none]
    cases Sql.plainWriter.run (.configured table .never .sql) t <;> rfl
  | cel =>
    obtain rfl := Option.some.inj hd
    refine parse_of_carries Cel.carries rfl (fun _ => rfl) ?_ htable hsome ht hroot
      (fun _ _ => trivial) hrules hformat hsource hback
    show write .cel _ t = _
    rw [write, Language.format, Writer.within_none]
    cases (Language.writer .cel).run (.configured table .never .cel) t <;> rfl
  | spel =>
    obtain rfl := Option.some.inj hd
    refine parse_of_carries Spel.carries rfl (fun _ => rfl) ?_ htable hsome ht hroot
      (fun _ _ => trivial) hrules hformat hsource hback
    show write .spel _ t = _
    rw [write, Language.format, Writer.within_none]
    cases (Language.writer .spel).run (.configured table .never .spel) t <;> rfl
  | mongodb =>
    obtain rfl := Option.some.inj hd
    refine parse_of_carries Mongo.carries rfl (fun _ => rfl) ?_ htable hsome ht hroot
      (fun _ _ => trivial) hrules hformat hsource hback
    rw [write, Mongo.format, Writer.within_none]
    cases Mongo.writer.run (.configured table .never .mongodb) t <;> rfl
  | jsonlogic =>
    obtain rfl := Option.some.inj hd
    refine parse_of_carries JsonLogic.carries rfl (fun _ => rfl) ?_ htable hsome ht hroot
      (fun _ _ => trivial) hrules hformat hsource hback
    rw [write, JsonLogic.format, Writer.within_none]
    cases JsonLogic.writer.run (.configured table .never .jsonlogic) t <;> rfl
  | parameterized | parameterizedNamed | naturalLanguage | qdrant => cases hd

/-- That `a` is among `b` and `c`, and neither is it `b` nor is `c` over 5.  A rule on another
field is disabled. -/
def sharedSpecimen : Node :=
  .group (.text "and") {}
    [.rule (.ofFields "a" .isIn (.text "b, c")),
      .rule { Rule.of "z" .eq (.int 1) with disabled := true },
      .group (.text "or") { negated := true }
        [.rule (.ofFields "a" .eq (.text "b")), .rule (.of "c" .gt (.int 5))]]

/-- The fields that the specimen names. -/
def sharedTable : FieldTable :=
  ["a", "b", "c"].map fun name => (.text name, { name := .text name })

/-- What is written of the specimen. -/
def sharedOutput : Value :=
  .map [("and", .list
    [.map [("in", .list [.map [("var", .text "a")],
      .list [.map [("var", .text "b")], .map [("var", .text "c")]]])],
    .map [("!", .map [("or", .list
      [.map [("==", .list [.map [("var", .text "a")], .map [("var", .text "b")]])],
        .map [(">", .list [.map [("var", .text "c")], .int 5])]])])]])]

theorem parse_of_format_specimen :
    format { format := .text "jsonlogic", fields := named ["a", "b", "c"] } sharedSpecimen =
      .ok (.value sharedOutput) ∧
    ∃ back, parse (.value sharedOutput) (.text "jsonlogic") .defaults [] = .ok back ∧
      back.rules = [.ofFields "a" .isIn (.text "b,c"), .ofFields "a" .eq (.text "b"),
        .of "c" .gt (.int 5)] ∧
      parse (.value sharedOutput) (.text "jsonlogic") .defaults
        [("fields", .fields (named ["a", "b", "c"]))] = .ok back := by
  have hb : (Value.text "b").IsStorable ∧ sharedTable.Has (.text "b") :=
    ⟨⟨by decide, rfl, by decide, by decide⟩, _, rfl⟩
  have hc : (Value.text "c").IsStorable ∧ sharedTable.Has (.text "c") :=
    ⟨⟨by decide, rfl, by decide, by decide⟩, _, rfl⟩
  have hmembership : (Rule.ofFields "a" .isIn (.text "b, c")).IsClear .jsonlogic
      JsonLogic.repertoire sharedTable .isIn := by
    have hb' : JsonLogic.repertoire.Suits .isIn .field (.text "b") := .field ⟨by decide, rfl⟩
    have hc' : JsonLogic.repertoire.Suits .isIn .field (.text "c") := .field ⟨by decide, rfl⟩
    refine ⟨⟨rfl, ⟨"a", rfl, trivial⟩, ?_⟩, by rintro ⟨⟩, by rintro ⟨⟩, fun _ => ?_⟩
    · exact List.forall_mem_cons.mpr ⟨hb', List.forall_mem_singleton.mpr hc'⟩
    · exact List.forall_mem_cons.mpr ⟨hb, List.forall_mem_singleton.mpr hc⟩
  have hcomparison : (Rule.ofFields "a" .eq (.text "b")).IsClear .jsonlogic
      JsonLogic.repertoire sharedTable .eq :=
    ⟨⟨rfl, ⟨"a", rfl, trivial⟩, List.forall_mem_singleton.mpr (.field trivial)⟩, by rintro ⟨⟩,
      by rintro ⟨⟩, fun _ => List.forall_mem_singleton.mpr hb⟩
  have hliteral : (Rule.of "c" .gt (.int 5)).IsClear .jsonlogic JsonLogic.repertoire sharedTable
      .gt :=
    ⟨⟨rfl, ⟨"c", rfl, trivial⟩, List.forall_mem_singleton.mpr (.int 5)⟩,
      fun _ _ => List.forall_mem_singleton.mpr rfl, by rintro ⟨⟩, by rintro ⟨⟩⟩
  have hrules : ∀ r ∈ sharedSpecimen.liveRules,
      ∃ op, r.2.IsClear .jsonlogic JsonLogic.repertoire sharedTable op := by
    refine List.forall_mem_cons.mpr ⟨⟨_, hmembership⟩, ?_⟩
    exact List.forall_mem_cons.mpr ⟨⟨_, hcomparison⟩, List.forall_mem_singleton.mpr ⟨_, hliteral⟩⟩
  have htree : sharedSpecimen.IsTree := by
    refine .group (List.forall_mem_cons.mpr ⟨.rule _, List.forall_mem_cons.mpr ⟨.rule _,
      List.forall_mem_singleton.mpr (.group ?_)⟩⟩)
    exact List.forall_mem_cons.mpr ⟨.rule _, List.forall_mem_singleton.mpr (.rule _)⟩
  have htable : FieldTable.ofInput (named ["a", "b", "c"]) = .ok sharedTable := rfl
  have hformat : format { format := .text Dialect.jsonlogic.name, fields := named ["a", "b", "c"] }
      sharedSpecimen = .ok (.value sharedOutput) := rfl
  exact ⟨hformat, _, rfl, rfl, parse_of_format (d := .jsonlogic) rfl htable (by decide) htree rfl
    (by rintro ⟨⟩) hrules hformat rfl rfl⟩

/-- That `a` is `b`. -/
def uncheckedSpecimen : Node := .group (.text "and") {} [.rule (.ofFields "a" .eq (.text "b"))]

/-- What is written of it. -/
def uncheckedOutput : Value :=
  .map [("and", .list
    [.map [("==", .list [.map [("var", .text "a")], .map [("var", .text "b")]])]])]

/-- The field that a rule is compared with is not looked at when it is written: what is written
with the one field `a` names `b` too, and is refused with the same field. -/
theorem parse_of_format_unchecked :
    format { format := .text "jsonlogic", fields := named ["a"] } uncheckedSpecimen =
      .ok (.value uncheckedOutput) ∧
    parse (.value uncheckedOutput) (.text "jsonlogic") .defaults [] = .ok uncheckedSpecimen ∧
    parse (.value uncheckedOutput) (.text "jsonlogic") .defaults
        [("fields", .fields (named ["a"]))] = .error (.unknownField (.text "b") [0]) :=
  ⟨rfl, rfl, rfl⟩

end Query
end RuleTree
