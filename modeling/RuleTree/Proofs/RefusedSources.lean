import RuleTree.Proofs.Readers
import RuleTree.Proofs.RoundTrip.Sql

/-! # Sources that are refused

A source in whatever shape has a tree, or it is refused: for a fault in it, for a part of it that
no rule stands for or, where fields are configured, for one that is not among them
(`Query.parse_or_refuse`).  That is all that goes wrong where integers may have any number of
digits.

An interpreter that limits them refuses a numeral of more digits in its own way, as soon as the
reader converts it, and so does the wording of a fault that shows a long integer.  Neither happens
to a source without such literals under a limit of depth that is no longer; the text of a
comparison with one ones too many is refused so (`Query.parse_or_refuse_ones`).
-/
namespace RuleTree

/-! ### Wordings -/

namespace DigitLimit
variable {limit : DigitLimit} {e : Error}

/-- An error is worded, or its wording has too many digits. -/
theorem word_eq_or (limit : DigitLimit) (e : Error) :
    limit.word e = e ∨ limit.word e = .misuse .tooManyDigits := by
  cases limit with
  | none => exact .inl rfl
  | some digits =>
    rw [word]
    split
    · exact .inl rfl
    · exact .inr rfl

/-- An error with no more digits than the limit is worded. -/
theorem word_eq_self (h : ∀ digits ∈ limit, e.written.all (·.isShort digits) = true) :
    limit.word e = e := by
  cases limit with
  | none => rfl
  | some digits => rw [word, if_pos (h digits rfl)]

end DigitLimit

namespace Query
variable {limit bound : DigitLimit} {plan : ParsePlan} {e : Error}

/-! ### Faults -/

/-- What a source is refused for is one of three things, or an integer that is too long. -/
theorem of_refuses (h : plan.Refuses limit bound e) :
    (∃ fault place, e = .parse fault place) ∨ (∃ token name, e = .unrepresentable token name) ∨
      (plan.fields ≠ [] ∧ ∃ name path, e = .unknownField name path) ∨
      (bound ≠ limit ∧ e = .misuse .tooManyDigits) := by
  cases e with
  | parse => exact .inl ⟨_, _, rfl⟩
  | unrepresentable => exact .inr (.inl ⟨_, _, rfl⟩)
  | unknownField => exact .inr (.inr (.inl ⟨h.1, _, _, rfl⟩))
  | misuse m =>
    cases m with
    | tooManyDigits => exact .inr (.inr (.inr ⟨h, rfl⟩))
    | _ => exact h.1.elim
  | _ => exact h.1.elim

/-- It is worded within the bound, but for that integer. -/
theorem isShort_of_refuses (h : plan.Refuses limit bound e) :
    ∀ digits ∈ bound, e.written.all (·.isShort digits) = true := by
  cases e with
  | unknownField name path =>
    intro digits hdigits
    simpa [Error.written] using h.2 digits hdigits
  | misuse m =>
    intro _ _
    rfl
  | _ => exact h.2

/-- So is what is made of it where errors are worded. -/
theorem exists_worded_of_ends {matching : Bool} {x : Result Node}
    (h : x.Ends (plan.Refuses limit bound) (Node.IsRead matching)) :
    (∃ t, limit.worded x = .ok t ∧ t.IsTree) ∨ ∃ e, limit.worded x = .error e ∧
      ((∃ fault place, e = .parse fault place) ∨ (∃ token name, e = .unrepresentable token name) ∨
        (plan.fields ≠ [] ∧ ∃ name path, e = .unknownField name path) ∨
        (bound ≠ limit ∧ e = .misuse .tooManyDigits)) := by
  cases x with
  | ok t => exact .inl ⟨t, DigitLimit.worded_ok limit t, h.isTree⟩
  | error e =>
    refine .inr ⟨_, DigitLimit.worded_error limit e, ?_⟩
    by_cases hbound : bound = limit
    · rw [DigitLimit.word_eq_self (hbound ▸ isShort_of_refuses h)]
      exact of_refuses h
    · rcases DigitLimit.word_eq_or limit e with hword | hword
      · rw [hword]
        exact of_refuses h
      · exact .inr (.inr (.inr ⟨hbound, hword⟩))

/-- The source is left to the reader, once dialect and options are settled. -/
theorem parse_value {dialect : Value} {entry : String × Reader} {input : OptionsInput ParseOptions}
    {overrides : List (String × OptionValue)} (hreader : reader dialect limit = .ok entry)
    (hplan : (ParseOptions.build input overrides >>= ParseOptions.resolve) = .ok plan)
    (source : Value) :
    parse (.value source) dialect input overrides limit = limit.worded (entry.2 plan source) := by
  obtain ⟨name, read⟩ := entry
  obtain ⟨options, hoptions, hresolve⟩ := Result.bind_eq_ok hplan
  rw [parse, hreader, Result.ok_bind, hoptions]
  show limit.worded (options.resolve >>= fun plan => read plan source) = _
  rw [hresolve]
  rfl

/-! ### Trees and refusals -/

/-- **Refused sources.**  Whatever value is given as a source, in whatever dialect and with
whatever options, the answer is a tree, or the source is refused: for a fault in it, for a
part of it that no rule stands for or, where fields are configured, for one that is not among
them.  Nothing else goes wrong, unless digits are limited and the source, or the limit of depth,
has an integer with too many of them. -/
theorem parse_or_refuse {limit : DigitLimit} {dialect : Value} {entry : String × Reader}
    {input : OptionsInput ParseOptions} {overrides : List (String × OptionValue)}
    {plan : ParsePlan} (hreader : reader dialect limit = .ok entry)
    (hplan : (ParseOptions.build input overrides >>= ParseOptions.resolve) = .ok plan)
    (source : Value) :
    (∃ t, parse (.value source) dialect input overrides limit = .ok t ∧ t.IsTree) ∨
      ∃ e, parse (.value source) dialect input overrides limit = .error e ∧
        ((∃ fault place, e = .parse fault place) ∨
          (∃ token name, e = .unrepresentable token name) ∨
          (plan.fields ≠ [] ∧ ∃ name path, e = .unknownField name path) ∨
          (e = .misuse .tooManyDigits ∧ ∃ digits, limit = some digits ∧
            ¬(HasFewDigits digits entry.1 source ∧
              ∀ depth ∈ plan.maxDepth, depth.isShort digits = true))) := by
  obtain ⟨options, -, hresolve⟩ := Result.bind_eq_ok hplan
  have hcounts := ParseOptions.countsDepth_of_resolve hresolve
  rw [parse_value hreader hplan source]
  by_cases hfew : ∀ digits ∈ limit, HasFewDigits digits entry.1 source ∧
      ∀ depth ∈ plan.maxDepth, depth.isShort digits = true
  · -- nothing is too long, so that none of the errors is about digits
    have hshort : plan.CountsWithin limit :=
      ⟨hcounts, fun depth hdepth digits hdigits => (hfew digits hdigits).2 depth hdepth⟩
    have hread := ends_read (mem_readers hreader) hshort (.inr rfl)
      fun digits hdigits => (hfew digits hdigits).1
    refine (exists_worded_of_ends hread).imp_right ?_
    rintro ⟨e, he, hfault | hfault | hfault | ⟨hbound, -⟩⟩
    · exact ⟨e, he, .inl hfault⟩
    · exact ⟨e, he, .inr (.inl hfault)⟩
    · exact ⟨e, he, .inr (.inr (.inl hfault))⟩
    · exact absurd rfl hbound
  · -- something may be too long, for the reader or for the wording of a fault
    obtain ⟨digits, hdigits, hmany⟩ : ∃ digits, limit = some digits ∧
        ¬(HasFewDigits digits entry.1 source ∧
          ∀ depth ∈ plan.maxDepth, depth.isShort digits = true) := by
      simpa [Option.mem_def] using hfew
    have hread : (entry.2 plan source).Ends (plan.Refuses limit none)
        (Node.IsRead (entry.1 != "mongodb")) :=
      ends_read (mem_readers hreader) hcounts.within (.inl rfl) nofun
    refine (exists_worded_of_ends hread).imp_right ?_
    rintro ⟨e, he, hfault | hfault | hfault | ⟨-, hfault⟩⟩
    · exact ⟨e, he, .inl hfault⟩
    · exact ⟨e, he, .inr (.inl hfault)⟩
    · exact ⟨e, he, .inr (.inr (.inl hfault))⟩
    · exact ⟨e, he, .inr (.inr (.inr ⟨hfault, digits, hdigits, hmany⟩))⟩

/-- A document with a range of a field that is not configured, beside a negation that takes
no list. -/
def refusedSpecimen : Value :=
  .map [("$or", .list [.map [("a", .map [("$gte", .null), ("$lte", .list [])])],
    .map [("b", .map [("$not", .list [.int 1])])]])]

theorem parse_or_refuse_specimen :
    ∃ entry plan, reader (.text " MongoDB") (some 30) = .ok entry ∧
      (ParseOptions.build .defaults [("fields",
          .fields (.list [.field { name := .text "b" }]))] >>= ParseOptions.resolve) = .ok plan ∧
        ∃ e, parse (.value refusedSpecimen) (.text " MongoDB") .defaults
            [("fields", .fields (.list [.field { name := .text "b" }]))] (some 30) = .error e ∧
          ((∃ fault place, e = .parse fault place) ∨
            (∃ token name, e = .unrepresentable token name) ∨
            (plan.fields ≠ [] ∧ ∃ name path, e = .unknownField name path)) := by
  have hreader : reader (.text " MongoDB") (some 30) =
      .ok ("mongodb", fun plan v => Mongo.read plan v (some 30)) := rfl
  have hfew : HasFewDigits 30 "mongodb" refusedSpecimen := by
    refine ⟨nofun, nofun, nofun, fun _ => ⟨nofun, fun v hv => ?_⟩, nofun⟩
    obtain rfl : refusedSpecimen = v := Except.ok.inj hv
    decide
  obtain ⟨plan, hplan⟩ : ∃ plan, (ParseOptions.build .defaults [("fields",
      .fields (.list [.field { name := .text "b" }]))] >>= ParseOptions.resolve) = .ok plan :=
    ⟨_, rfl⟩
  have hdepth : ∀ depth ∈ plan.maxDepth, depth.isShort 30 = true := by
    obtain rfl := Except.ok.inj hplan
    exact nofun
  refine ⟨_, plan, hreader, hplan, ?_⟩
  rcases parse_or_refuse hreader hplan refusedSpecimen with ⟨t, ht, -⟩ | ⟨e, he, hfault⟩
  · cases ht
  · refine ⟨e, he, ?_⟩
    rcases hfault with hfault | hfault | hfault | ⟨-, digits, hdigits, hmany⟩
    · exact .inl hfault
    · exact .inr (.inl hfault)
    · exact .inr (.inr hfault)
    · obtain rfl := Option.some.inj hdigits
      exact absurd ⟨hfew, hdepth⟩ hmany

end Query

/-! ### Long numerals -/

/-- The text of a comparison with a row of so many ones. -/
def Sql.onesText (digits : Nat) : String :=
  String.ofList (['a', ' ', '=', ' '] ++ List.replicate digits '1')

namespace Sql
open Source

/-- It is read as a comparison, whatever its length. -/
theorem readFormula_onesText {digits : Nat} (hdigits : digits ≠ 0) :
    readFormula grammar .sql (onesText digits).toList =
      .ok ⟨.predicate (.comparison (.field ⟨false, ['a']⟩) ['=']
        (.number (List.replicate digits '1'))), []⟩ := by
  have hname : IsName "a" := ⟨⟨_, _, rfl, by decide, nofun⟩, fun k _ => by cases k <;> decide⟩
  have hones : Numeral.Spells ⟨false, List.replicate digits '1', none, none⟩
      (List.replicate digits '1') :=
    Numeral.spells_digits (by simpa using hdigits) fun c hc => by
      rw [List.eq_of_mem_replicate hc]
      rfl
  have hequals : Operator.eq.isComparison = true := rfl
  have hterm := readsTerm_comparison (spells_name hname) hequals (spells_number hones)
  have hread := hterm [] {} [] stops_nil
  rw [List.append_nil] at hread
  have htext : (onesText digits).toList = "a".toList ++
      ' ' :: ((Dialect.sqlSpelling .eq).toList ++ ' ' :: List.replicate digits '1') := by
    rw [onesText, String.toList_ofList]
    rfl
  rw [readFormula, htext, hread, readFrom_nil rfl]
  rfl

/-- It is refused where the row is longer than the limit. -/
theorem read_onesText {most digits : Nat} (h : most < digits) (plan : ParsePlan) :
    read plan (.text (onesText digits)) (some most) = Misuse.tooManyDigits.fail := by
  have hblank : Text.trimBoth (onesText digits).toList ≠ [] := by
    rw [onesText, String.toList_ofList]
    exact Text.trimBoth_ne_nil (by decide) _
  have hfits := Conversion.fits_read_ones .strict nofun h
  have hcheck : DigitLimit.check (some most)
      [.read .strict (.text (String.ofList (List.replicate digits '1')))] =
        Misuse.tooManyDigits.fail := by
    rw [DigitLimit.check, if_neg]
    simp [hfits]
  have hterm : (meaning.within Predicate.leaves (some most)).term (.predicate
      (.comparison (.field ⟨false, ['a']⟩) ['='] (.number (List.replicate digits '1')))) =
        Misuse.tooManyDigits.fail := by
    rw [Meaning.term]
    show (DigitLimit.check (some most)
      [.read .strict (.text (String.ofList (List.replicate digits '1')))] >>= _) = _
    rw [hcheck]
    rfl
  rw [read, readText, if_neg (by simpa using hblank),
    readFormula_onesText (Nat.ne_zero_of_lt h), Result.ok_bind, Meaning.formula]
  dsimp only
  rw [Meaning.term, hterm]
  rfl

end Sql

namespace Query

/-- **Long numerals.**  The text is refused whenever the row is longer than the limit. -/
theorem parse_onesText {most digits : Nat} (h : most < digits) :
    parse (.value (.text (Sql.onesText digits))) (.text "sql") .defaults [] (some most) =
      .error (.misuse .tooManyDigits) := by
  have hreader : reader (.text "sql") (some most) =
      .ok ("sql", fun plan v => Sql.read plan v (some most)) := rfl
  obtain ⟨plan, hplan⟩ : ∃ plan,
      (ParseOptions.build .defaults [] >>= ParseOptions.resolve) = .ok plan := ⟨_, rfl⟩
  have hread := Sql.read_onesText h plan
  rw [parse_value hreader hplan]
  exact (congrArg (DigitLimit.worded (some most)) hread).trans (DigitLimit.worded_error _ _)

/-- So is a text with valid options, which is no text in JSON. -/
theorem parse_or_refuse_ones :
    (∃ plan, (ParseOptions.build .defaults [] >>= ParseOptions.resolve) = .ok plan) ∧
      parse (.value (.text (Sql.onesText 4301))) (.text "sql") .defaults [] (some 4300) =
        .error (.misuse .tooManyDigits) :=
  ⟨⟨_, rfl⟩, parse_onesText (by decide)⟩

end Query
end RuleTree
