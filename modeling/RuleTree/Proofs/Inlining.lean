import RuleTree.Proofs.Rebuilding
import RuleTree.Proofs.SharedSkeleton

/-! # Parameters written out

Plain SQL is SQL with parameters in which the literal of every parameter stands in
the place of its question mark (`Sql.format_inlined`).  Both are one draft: plain
SQL fills it with literals where the other ways fill it with placeholders, and a
literal does not end with a blank either (`Sql.isMark_literal`).

Two things stand in the way.  A text that a rule compares with is bound as what is
left of its literal without the outer quotes, which is the text only if no quote is
doubled in it and no line ends in it (`Sql.unquote_textLiteral`).  And plain SQL drops
the outer blanks of all conditions, SQL with parameters only of those with one
parameter or none, which shows where a row or a range follows a field without a name.
-/
namespace RuleTree

/-! ### Literals -/

namespace Text

/-- A text of one line without single quotes. -/
def IsPlainLine (s : String) : Prop := ∀ c ∈ s.toList, c ≠ '\'' ∧ c ≠ '\n'

instance : DecidablePred IsPlainLine := fun s =>
  List.decidableBAll (fun c => c ≠ '\'' ∧ c ≠ '\n') s.toList

theorem doubled_of_forall_ne {quote : Char} {cs : List Char} (h : ∀ c ∈ cs, c ≠ quote) :
    doubled quote cs = cs :=
  doubled_eq_self_iff.mpr fun hquote => h quote hquote rfl

/-- A text that does not start with a blank. -/
def IsStart (s : String) : Prop := ∃ c cs, s.toList = c :: cs ∧ isBlank c = false

theorem IsStart.append {s : String} (h : IsStart s) (t : String) : IsStart (s ++ t) := by
  obtain ⟨c, cs, hs, hblank⟩ := h
  exact ⟨c, cs ++ t.toList, by rw [String.toList_append, hs, List.cons_append], hblank⟩

/-- A text between characters that are no blanks is trimmed to itself. -/
theorem trim_append_eq_self {s t : String} (hs : IsStart s) (ht : IsMark t) :
    trim (s ++ t) = s ++ t := by
  obtain ⟨c, cs, hs, hc⟩ := hs
  have hstart : trimStart s.toList = s.toList := by
    rw [hs, trimStart, List.dropWhile_cons_of_neg (by simp [hc])]
  rw [trim_append ⟨c, hs ▸ List.mem_cons_self, hc⟩ ht, hstart, String.ofList_toList]

end Text

namespace Decimal
open Text

theorem isBlank_of_mem_toDigits {n : Nat} {c : Char} (h : c ∈ Nat.toDigits 10 n) :
    isBlank c = false := by
  have hint : c ∈ (Value.intText n).toList := by
    rw [Value.toList_intText, if_neg (Int.not_lt.mpr (Int.natCast_nonneg n))]
    exact h
  exact Value.isBlank_of_mem_intText hint

/-- A decimal is written without blanks. -/
theorem isBlank_of_mem_text {layout : Layout} {x : Decimal} {c : Char}
    (h : c ∈ x.text layout) : isBlank c = false := by
  have hzeros : ∀ n, ∀ c ∈ List.replicate n '0', isBlank c = false := by
    intro n c hc
    rw [List.eq_of_mem_replicate hc]
    decide
  have hdigits : ∀ n, ∀ c ∈ Nat.toDigits 10 n, isBlank c = false :=
    fun _ _ => isBlank_of_mem_toDigits
  have hpoint : isBlank '.' = false := by decide
  have hzero : isBlank '0' = false := by decide
  suffices hall : ∀ c ∈ x.text layout, isBlank c = false from hall c h
  unfold text
  dsimp only
  generalize hds : Nat.toDigits 10 (trimZeros 20 x).digits = ds
  have hd : ∀ c ∈ ds, isBlank c = false := hds ▸ hdigits _
  split
  · split
    · exact List.forall_mem_cons.mpr ⟨hzero, List.forall_mem_cons.mpr
        ⟨hpoint, List.forall_mem_append.mpr ⟨hzeros _, hd⟩⟩⟩
    · split
      · exact List.forall_mem_append.mpr ⟨List.forall_mem_append.mpr ⟨hd, hzeros _⟩,
          List.forall_mem_cons.mpr ⟨hpoint, List.forall_mem_singleton.mpr hzero⟩⟩
      · exact List.forall_mem_append.mpr ⟨fun c hc => hd c (List.mem_of_mem_take hc),
          List.forall_mem_cons.mpr ⟨hpoint, fun c hc => hd c (List.mem_of_mem_drop hc)⟩⟩
  · refine List.forall_mem_append.mpr ⟨?_, List.forall_mem_cons.mpr ⟨by decide,
      List.forall_mem_cons.mpr ⟨by split <;> decide,
        List.forall_mem_append.mpr ⟨hzeros _, hdigits _⟩⟩⟩⟩
    split
    · obtain ⟨hfirst, hrest⟩ := List.forall_mem_cons.mp hd
      exact List.forall_mem_cons.mpr ⟨hfirst, List.forall_mem_cons.mpr ⟨hpoint, hrest⟩⟩
    · exact hd

theorem text_ne_nil (layout : Layout) (x : Decimal) : x.text layout ≠ [] := by
  unfold text
  dsimp only
  split
  · split
    · exact List.cons_ne_nil _ _
    · split <;> simp
  · simp

end Decimal

theorem Binary64.isMark_text (x : Binary64) : Text.IsMark x.text := by
  have hdigits : ∀ digits : List Char, digits ≠ [] → (∀ c ∈ digits, Text.isBlank c = false) →
      ∀ negative : Bool,
        Text.IsMark (String.ofList (if negative then '-' :: digits else digits)) := by
    intro digits hne hblank negative
    cases negative with
    | false =>
      exact Text.isMark_of_forall (by simpa using hne) (by simpa using hblank)
    | true =>
      have hminus : Text.isBlank '-' = false := by decide
      exact Text.isMark_of_forall (by simp) (by simpa using ⟨hminus, hblank⟩)
  cases x with
  | nan => exact ⟨['n', 'a'], 'n', rfl, by decide⟩
  | infinite negative =>
    cases negative with
    | false => exact ⟨['i', 'n'], 'f', rfl, by decide⟩
    | true => exact ⟨['-', 'i', 'n'], 'f', rfl, by decide⟩
  | finite negative mantissa exponent =>
    refine hdigits _ ?_ ?_ negative
    · split
      · exact List.cons_ne_nil _ _
      · exact Decimal.text_ne_nil _ _
    · have hzero : Text.isBlank '0' = false := by decide
      have hpoint : Text.isBlank '.' = false := by decide
      split
      · simp [hzero, hpoint]
      · exact fun _ => Decimal.isBlank_of_mem_text

/-- A range has its bounds in its first two places, and neither is blank. -/
theorem Value.toPlaces_of_bounds? {v low high : Value} (h : v.bounds? = some (low, high)) :
    ∃ rest, v.toPlaces = low :: high :: rest ∧ low.isBlankValue = false ∧
      high.isBlankValue = false := by
  unfold bounds? at h
  split at h
  · next first second rest hplaces =>
    split at h
    · cases h
    · next hblank =>
      obtain ⟨rfl, rfl⟩ := Prod.mk.inj (Option.some.inj h)
      rw [Bool.or_eq_true_iff, not_or] at hblank
      exact ⟨rest, hplaces, Bool.eq_false_iff.mpr hblank.1, Bool.eq_false_iff.mpr hblank.2⟩
  · cases h

namespace Sql
open Text

/-- A text is never taken for a number. -/
theorem literal_text (s : String) : literal .never (.text s) = textLiteral s := rfl

/-- A literal ends with a quote, a letter or a digit. -/
theorem isMark_literal (v : Value) : IsMark (literal .never v) := by
  have hquoted : ∀ s, IsMark (textLiteral s) := fun s =>
    ⟨'\'' :: doubled '\'' s.toList, '\'', toList_textLiteral s, by decide⟩
  cases v with
  | null => exact ⟨['N', 'U', 'L'], 'L', rfl, by decide⟩
  | bool b =>
    cases b with
    | false => exact ⟨['F', 'A', 'L', 'S'], 'E', rfl, by decide⟩
    | true => exact ⟨['T', 'R', 'U'], 'E', rfl, by decide⟩
  | int n =>
    have hint : literal .never (.int n) = Value.intText n := Value.display_int n
    rw [hint]
    exact isMark_of_forall (Value.intText_ne_nil n) fun _ => Value.isBlank_of_mem_intText
  | float x => exact x.isMark_text
  | text s => exact hquoted s
  | list items => exact hquoted _
  | map entries => exact hquoted _

/-- A line in quotes is bound without the outer ones. -/
theorem unquote_textLiteral_line {s : String} (h : '\n' ∉ s.toList) :
    unquote (.text (textLiteral s)) = .text (doubleQuotes s) := by
  have hbreak : (textLiteral s).toList.contains '\n' = false := by
    rw [toList_textLiteral, Bool.eq_false_iff, ne_eq, List.contains_iff_mem]
    simpa [mem_doubled] using h
  have hquoted : isQuotedLiteral (textLiteral s).toList = true := by
    have hlast : ('\'' :: (doubled '\'' s.toList ++ ['\''])).getLast? = some '\'' := by
      rw [← List.cons_append, List.getLast?_concat]
    rw [isQuotedLiteral, isQuotedLine, hbreak, toList_textLiteral, hlast]
    simp
  rw [unquote, hquoted, if_pos rfl, toList_textLiteral, List.tail_cons, List.dropLast_concat,
    ← toList_doubleQuotes, String.ofList_toList]

/-- A text in quotes is bound as the text itself. -/
theorem unquote_textLiteral {s : String} (h : IsPlainLine s) :
    unquote (.text (textLiteral s)) = .text s := by
  have hself : doubleQuotes s = s := by
    rw [← String.toList_inj, toList_doubleQuotes]
    exact doubled_of_forall_ne fun c hc => (h c hc).1
  rw [unquote_textLiteral_line fun hbreak => (h _ hbreak).2 rfl, hself]

/-- The pattern of a plain line is one. -/
theorem isPlainLine_likePattern (op : Operator) {v : Value} (h : IsPlainLine v.display) :
    IsPlainLine (likePattern op v) := by
  have happend : ∀ {s t : String}, IsPlainLine s → IsPlainLine t → IsPlainLine (s ++ t) := by
    intro s t hs ht c hc
    rw [String.toList_append] at hc
    exact (List.mem_append.mp hc).elim (hs c) (ht c)
  have hpercent : IsPlainLine "%" := by decide
  unfold likePattern
  split
  · exact happend h hpercent
  · split
    · exact happend hpercent h
    · exact happend (happend hpercent h) hpercent

/-- Literals in a row stand in the places of parameters in a row. -/
theorem fill_paramRow (separator : String) (values : List Value) (rest : List Piece) :
    Skeleton.fill (Skeleton.paramRow separator values ++ rest) (values.map (literal .never)) =
      joinWith separator (values.map (literal .never)) ++ Skeleton.fill rest [] := by
  induction values with
  | nil => simp [Skeleton.paramRow]
  | cons v values ih =>
    cases values with
    | nil => simp [Skeleton.paramRow, Skeleton.fill]
    | cons w values =>
      rw [List.map_cons] at ih
      rw [Skeleton.paramRow, List.map_cons, List.map_cons, joinWith_cons_cons, List.cons_append,
        List.cons_append, Skeleton.fill, Skeleton.fill, ih]
      simp only [String.append_assoc]

/-! ### Rules -/

/-- The parameters of a rule that compares with values can be written out under the
style. -/
structure Inlinable (style : Style) (r : Rule) : Prop where
  /-- The quoted name of a field with a row of values or a range starts with no blank. -/
  named (op : Operator) : r.operator? = some op → op.isMembership = true ∨ op.isRange = true →
    IsStart (fieldText style r.field)
  /-- A text in a comparison is a plain line. -/
  compared (op : Operator) (s : String) : r.operator? = some op → op.isComparison = true →
    r.value = .text s → IsPlainLine s
  /-- The text of a value in a text match is a plain line. -/
  matched (op : Operator) : r.operator? = some op → op.isTextMatch = true →
    IsPlainLine r.value.display

/-- A rule as plain SQL, given its value as it is written. -/
def plainClause (style : Style) (op : Operator) (r : Rule) (written : String) : String :=
  let start := fieldText style r.field ++ " " ++ Dialect.sqlSpelling op
  if op.isNullCheck then start
  else if (op.isMembership || op.isRange) && written == "" then ""
  else trim (start ++ " " ++ written)

section
variable {plan : FormatPlan} {style : Style} {op : Operator} {r : Rule}

theorem not_truthy_text (s : String) : (!(Value.text s).truthy) = (s == "") := by
  simp [Value.truthy, bne]

theorem valueText_of_isNullCheck (hop : r.operator? = some op) (hnull : op.isNullCheck = true) :
    ∃ s, valueText r style = .ok s := by
  unfold valueText
  rw [hop]
  cases r.comparesFields with
  | true => exact ⟨fieldText style r.value, by cases op <;> cases hnull <;> rfl⟩
  | false => exact ⟨"", by simp [hnull]⟩

theorem plainRule_eq (hop : r.operator? = some op) (hhook : plan.valueHook = .absent) :
    plainRule plan r = (valueText r plan.style).map (plainClause plan.style op r) := by
  have hresolve := Rule.resolve_of_operator? hop (.text "sql")
  have hvalue : ruleValue plan r = (valueText r plan.style).map .text := by
    rw [ruleValue, hhook]
  rw [plainRule, hresolve, Result.ok_bind, hvalue]
  cases hnull : op.isNullCheck with
  | true =>
    obtain ⟨s, hs⟩ : ∃ s, valueText r plan.style = .ok s := valueText_of_isNullCheck hop hnull
    rw [hs]
    have hclause : plainClause plan.style op r s =
        fieldText plan.style r.field ++ " " ++ Dialect.sqlSpelling op := if_pos hnull
    exact congrArg Except.ok hclause.symm
  | false =>
    cases valueText r plan.style with
    | error e => rfl
    | ok s =>
      have hclause : plainClause plan.style op r s =
          if (op.isMembership || op.isRange) && s == "" then ""
          else trim (fieldText plan.style r.field ++ " " ++ Dialect.sqlSpelling op ++ " " ++ s) := by
        unfold plainClause
        simp only [hnull, Bool.false_eq_true, if_false]
      show (if (op.isMembership || op.isRange) && !(Value.text s).truthy then _ else _) = _
      rw [not_truthy_text, Except.map, hclause]
      split <;> rfl

theorem plainClause_of_isMark (hnull : op.isNullCheck = false)
    (hfield : IsStart (fieldText style r.field)) {s : String} (hs : IsMark s) :
    plainClause style op r s =
      fieldText style r.field ++ " " ++ Dialect.sqlSpelling op ++ " " ++ s := by
  have hne : (s == "") = false := beq_eq_false_iff_ne.mpr hs.ne_empty
  unfold plainClause
  simp only [hnull, hne, Bool.and_false, Bool.false_eq_true, if_false]
  exact trim_append_eq_self (((hfield.append " ").append _).append " ") hs

/-- The pieces of a rule with the literals of its parameters. -/
def inlined (c : Skeleton) : String := c.render (c.params.map (literal .never))

theorem params_paramRow (first separator last : String) (values : List Value) (trimmed : Bool) :
    (⟨.text first :: Skeleton.paramRow separator values ++ [.text last], trimmed⟩ :
      Skeleton).params = values := by
  show (⟨Skeleton.paramRow separator values ++ [.text last], trimmed⟩ : Skeleton).params = values
  induction values with
  | nil => rfl
  | cons v values ih =>
    cases values with
    | nil => rfl
    | cons w values => exact congrArg (v :: ·) ih

/-- A rule without operands is left out. -/
theorem inlined_empty (hmulti : op.isMembership = true ∨ op.isRange = true) :
    inlined (skeletonOf style op (Dialect.sqlSpelling op) r (.text "")) =
      plainClause style op r "" := by
  have hnull : op.isNullCheck = false := by
    rcases hmulti with hmember | hrange
    · exact (Operator.of_isMembership hmember).1
    · exact (Operator.of_isRange hrange).1
  have hempty : ((op.isMembership || op.isRange) && !(Value.text "").truthy) = true := by
    rw [Bool.or_eq_true_iff.mpr hmulti]
    rfl
  have hskeleton : skeletonOf style op (Dialect.sqlSpelling op) r (.text "") = .ofText "" :=
    if_pos hempty
  have hclause : plainClause style op r "" = "" := by
    unfold plainClause
    simp only [hnull, Bool.or_eq_true_iff.mpr hmulti, Bool.false_eq_true, if_false]
    rfl
  rw [hskeleton, hclause]
  rfl

theorem inlined_nullCheck (hnull : op.isNullCheck = true) (s : String) :
    inlined (skeletonOf style op (Dialect.sqlSpelling op) r (.text s)) =
      plainClause style op r s := by
  have hmulti : (op.isMembership || op.isRange) = false := by cases op <;> cases hnull <;> rfl
  rw [plainClause, if_pos hnull, skeletonOf, hmulti, Bool.false_and, if_neg Bool.false_ne_true,
    if_pos hnull]
  exact String.append_empty

/-- The value of a rule between fields is a part of its text. -/
theorem inlined_otherFields {s : String} (hnull : op.isNullCheck = false)
    (hkept : ((op.isMembership || op.isRange) && s == "") = false)
    (hfields : r.comparesFields = true) :
    inlined (skeletonOf style op (Dialect.sqlSpelling op) r (.text s)) =
      plainClause style op r s := by
  have hwritten : ((op.isMembership || op.isRange) && !(Value.text s).truthy) = false := by
    rw [not_truthy_text]
    exact hkept
  have hinlined : ∀ text : String, inlined ⟨[.text text], true⟩ = trim text := by
    intro text
    simp only [inlined, Skeleton.render, Skeleton.fill, if_true, String.append_empty]
  unfold skeletonOf plainClause
  simp only [hwritten, hkept, hnull, hfields, Bool.false_eq_true, if_false, if_true]
  rw [hinlined, Value.display_text]

section
variable (hop : r.operator? = some op) (hnever : style.policy = .never) {s : String}
  (hs : valueText r style = .ok s) (hvalues : r.comparesFields = false)
include hop hnever hs hvalues

/-- A row of values. -/
theorem inlined_membership (hmember : op.isMembership = true) (hne : s ≠ "")
    (hfield : IsStart (fieldText style r.field)) :
    inlined (skeletonOf style op (Dialect.sqlSpelling op) r (.text s)) =
      plainClause style op r s := by
  have hnull := (Operator.of_isMembership hmember).1
  have htruthy := bne_iff_ne.mpr hne
  have hopen : " (" = " " ++ "(" := rfl
  rw [valueText, hvalues, hop] at hs
  simp only [hnull, hmember, hnever, Bool.false_eq_true, if_false, if_true] at hs
  cases hitems : r.value.toItems with
  | nil =>
    rw [hitems] at hs
    exact absurd (Except.ok.inj hs).symm hne
  | cons v items =>
    rw [hitems] at hs
    obtain rfl := Except.ok.inj hs
    have hmark : IsMark ("(" ++ joinWith ", " ((v :: items).map (literal .never)) ++ ")") :=
      IsMark.append ⟨[], ')', rfl, by decide⟩ _
    rw [plainClause_of_isMark hnull hfield hmark, inlined, skeletonOf]
    -- no item is taken for a number, so the parameters are the items themselves
    simp only [Value.truthy, htruthy, hnull, hvalues, hmember, hnever, hitems,
      Value.map_withNumbers_never, Bool.not_true, Bool.and_false, Bool.false_eq_true, if_false,
      if_true]
    rw [params_paramRow, Skeleton.render, if_neg Bool.false_ne_true, List.cons_append,
      Skeleton.fill, fill_paramRow, hopen]
    simp only [Skeleton.fill, String.append_assoc, String.append_empty]

/-- A range. -/
theorem inlined_range (hrange : op.isRange = true) (hne : s ≠ "")
    (hfield : IsStart (fieldText style r.field)) :
    inlined (skeletonOf style op (Dialect.sqlSpelling op) r (.text s)) =
      plainClause style op r s := by
  obtain ⟨hnull, hmember, -⟩ := Operator.of_isRange hrange
  have htruthy := bne_iff_ne.mpr hne
  rw [valueText, hvalues, hop] at hs
  simp only [hnull, hmember, hrange, hnever, Bool.false_eq_true, if_false, if_true] at hs
  cases hbounds : r.value.bounds? with
  | none =>
    rw [hbounds] at hs
    exact absurd (Except.ok.inj hs).symm hne
  | some bounds =>
    obtain ⟨low, high⟩ := bounds
    rw [hbounds] at hs
    obtain rfl := Except.ok.inj hs
    obtain ⟨rest, hplaces, hlow, hhigh⟩ := Value.toPlaces_of_bounds? hbounds
    have hbound : ∀ v : Value, v.isBlankValue = false → boundParam .never (some v) = v := by
      intro v hv
      rw [boundParam, hv, if_neg Bool.false_ne_true, Value.withNumbers_never]
    have hmark := (isMark_literal high).append (literal .never low ++ " and ")
    rw [plainClause_of_isMark hnull hfield hmark, inlined, skeletonOf]
    simp only [Value.truthy, htruthy, hnull, hvalues, hmember, hrange, hnever, hplaces,
      List.getElem?_cons_zero, List.getElem?_cons_succ, hbound low hlow, hbound high hhigh,
      Bool.not_true, Bool.and_false, Bool.false_eq_true, if_false, if_true]
    simp only [Skeleton.render, Skeleton.params, List.filterMap, List.map, Skeleton.fill,
      Bool.false_eq_true, if_false, String.append_assoc, String.append_empty]

/-- The literal of the one parameter is the value as it is written. -/
theorem literal_singleParam (hnull : op.isNullCheck = false) (hmember : op.isMembership = false)
    (hrange : op.isRange = false) (hr : Inlinable style r) :
    literal .never (singleParam style.policy op r.value (.text s)) = s := by
  rw [valueText, hvalues, hop] at hs
  simp only [hnull, hmember, hrange, hnever, Bool.false_eq_true, if_false] at hs
  unfold singleParam
  cases htext : op.isTextMatch with
  | true =>
    rw [htext, if_pos rfl] at hs
    obtain rfl := Except.ok.inj hs
    rw [if_pos rfl, unquote_textLiteral (isPlainLine_likePattern op (hr.matched op hop htext)),
      literal_text]
  | false =>
    rw [htext, if_neg Bool.false_ne_true] at hs
    obtain rfl := Except.ok.inj hs
    rw [if_neg Bool.false_ne_true, hnever]
    cases hvalue : r.value with
    | text t =>
      have hcompares := Operator.isComparison_iff.mpr ⟨hnull, hmember, hrange, htext⟩
      have hplain := hr.compared op t hop hcompares hvalue
      have haccepts : NumberPolicy.accepts .never t.toList = false := rfl
      simp only [haccepts, Bool.false_eq_true, if_false]
      rw [literal_text, unquote_textLiteral hplain, literal_text]
    | _ => rfl

/-- One value. -/
theorem inlined_single (hnull : op.isNullCheck = false) (hmember : op.isMembership = false)
    (hrange : op.isRange = false) (hr : Inlinable style r) :
    inlined (skeletonOf style op (Dialect.sqlSpelling op) r (.text s)) =
      plainClause style op r s := by
  have hliteral := literal_singleParam hop hnever hs hvalues hnull hmember hrange hr
  have hinlined : ∀ (start : String) (v : Value),
      inlined ⟨[.text start, .param v], true⟩ = trim (start ++ literal .never v) := by
    intro start v
    simp only [inlined, Skeleton.render, Skeleton.params, List.filterMap, List.map, Skeleton.fill,
      if_true, String.append_empty]
  unfold skeletonOf plainClause
  simp only [hnull, hmember, hrange, hvalues, Bool.or_self, Bool.false_and, Bool.false_eq_true,
    if_false]
  rw [hinlined, hliteral]

omit hvalues in
/-- **Rules.**  With the literals of its parameters a rule is as plain SQL has it. -/
theorem inlined_skeletonOf (hr : r.comparesFields = false → Inlinable style r) :
    inlined (skeletonOf style op (Dialect.sqlSpelling op) r (.text s)) =
      plainClause style op r s := by
  cases hnull : op.isNullCheck with
  | true => exact inlined_nullCheck hnull s
  | false =>
    cases hkept : (op.isMembership || op.isRange) && s == "" with
    | true =>
      obtain ⟨hmulti, hempty⟩ := Bool.and_eq_true_iff.mp hkept
      obtain rfl := beq_iff_eq.mp hempty
      exact inlined_empty (Bool.or_eq_true_iff.mp hmulti)
    | false =>
      cases hfields : r.comparesFields with
      | true => exact inlined_otherFields hnull hkept hfields
      | false =>
        have hinlinable := hr hfields
        -- a row or a range that is left out was dealt with above
        have hne : (op.isMembership || op.isRange) = true → s ≠ "" := by
          rintro hmulti rfl
          rw [hmulti] at hkept
          cases hkept
        cases hmember : op.isMembership with
        | true =>
          have hmulti : (op.isMembership || op.isRange) = true := by rw [hmember]; rfl
          exact inlined_membership hop hnever hs hfields hmember (hne hmulti)
            (hinlinable.named op hop (.inl hmember))
        | false =>
          cases hrange : op.isRange with
          | true =>
            have hmulti : (op.isMembership || op.isRange) = true := by rw [hmember, hrange]; rfl
            exact inlined_range hop hnever hs hfields hrange (hne hmulti)
              (hinlinable.named op hop (.inr hrange))
          | false => exact inlined_single hop hnever hs hfields hnull hmember hrange hinlinable

end

end

/-! ### Trees -/

/-- A plan with another way to name and mark parameters. -/
def remarked (names : Hook NameSource) (paramPrefix : Value) (plan : FormatPlan) : FormatPlan :=
  { plan with names := names, style := { plan.style with paramPrefix := paramPrefix } }

section
variable {plan : FormatPlan} {t : Node}

theorem write_remarked {r : Rule} {op : Operator} (hop : r.operator? = some op)
    (hhook : plan.valueHook = .absent) (names : Hook NameSource) (paramPrefix : Value)
    (context : Option RuleContext) (bindings : Bindings) :
    draftWriter.write (Binding.unnumbered.plan (remarked names paramPrefix plan)) r context bindings =
      draftWriter.write (Binding.unnumbered.plan plan) r context bindings := by
  have hhook' : (remarked names paramPrefix plan).valueHook = .absent := hhook
  rw [write_draft, write_draft, ruleSkeleton_plan .unnumbered hop hhook,
    ruleSkeleton_plan .unnumbered hop hhook']
  rfl

/-- A draft does not depend on how parameters are named and marked. -/
theorem draft_remarked (names : Hook NameSource) (paramPrefix : Value)
    (hvalueHook : plan.valueHook = .absent) (hruleHook : plan.ruleHook = .absent) :
    draftWriter.run (Binding.unnumbered.plan (remarked names paramPrefix plan)) t =
      draftWriter.run (Binding.unnumbered.plan plan) t := by
  have hvalidate : (Binding.unnumbered.plan (remarked names paramPrefix plan)).validate =
      (Binding.unnumbered.plan plan).validate := rfl
  refine Writer.run_congr hvalidate rfl fun r _ path => funext fun bindings => ?_
  have hrule : (Binding.unnumbered.plan plan).ruleHook = .absent := hruleHook
  have hrule' : (Binding.unnumbered.plan (remarked names paramPrefix plan)).ruleHook = .absent :=
    hruleHook
  rw [Writer.writeRule_apply _ hrule', Writer.writeRule_apply _ hrule]
  refine Result.bind_congr fun field _ => ?_
  cases hop : r.operator? with
  | none =>
    rw [Writer.canExpress_of_none hop]
    rfl
  | some op =>
    rw [forField_plan, forField_plan, FormatPlan.forField_map (fun _ => rfl)]
    cases hplan : plan.forField field with
    | error e => rfl
    | ok plan' =>
      obtain ⟨policy, rfl⟩ := FormatPlan.eq_of_forField hplan
      have hhook : ({ plan with style := { plan.style with policy := policy } } :
        FormatPlan).valueHook = .absent := hvalueHook
      split
      · exact write_remarked hop hhook names paramPrefix
          (some ⟨path, bindings.count, field⟩) bindings
      · rfl

/-- The mark of a parameter that is written out. -/
def literalMark (_ : List Slot) (slot : Slot) : String := literal .never slot.value

theorem along_literalMark (before slots : List Slot) :
    along literalMark before slots = slots.map fun slot => literal .never slot.value := by
  induction slots generalizing before with
  | nil => rfl
  | cons slot slots ih => rw [along, ih, List.map_cons, literalMark]

theorem isMark_literalMark (before : List Slot) (slot : Slot) : IsMark (literalMark before slot) :=
  isMark_literal slot.value

theorem write_plain (r : Rule) (plan : FormatPlan) (context : Option RuleContext)
    (bindings : Bindings) :
    plainWriter.write plan r context bindings =
      (plainRule plan r).map fun s => (.text s, bindings) := by
  have hwrite : plainWriter.write plan r context =
      (liftM (plainRule plan r) : Write String) >>= fun s => pure (.text s) := rfl
  rw [hwrite, Write.lift_bind]
  cases plainRule plan r <;> rfl

/-- A rule is plain SQL as its draft with the literals. -/
theorem write_inlined {r : Rule} {op : Operator} (hop : r.operator? = some op)
    (hhook : plan.valueHook = .absent) (hnever : plan.style.policy = .never)
    (hr : r.comparesFields = false → Inlinable plan.style r) (before : List Slot)
    (context : Option RuleContext) :
    Writer.Abreast (fun _ => {}) (fun _ => {}) SameFault (Fills literalMark before)
      (draftWriter.write (Binding.unnumbered.plan plan) r context {})
      (plainWriter.write plan r context {}) := by
  rw [write_draft, ruleSkeleton_plan .unnumbered hop hhook, write_plain, plainRule_eq hop hhook]
  cases hvalue : valueText r plan.style with
  | error e => exact .error rfl
  | ok s =>
    have hfills := fills_ofPieces isMark_literalMark before r.field.display
      (@isTrimmable_skeletonOf plan.style op r (.text s))
    rw [along_literalMark, List.map_map] at hfills
    have hclause := inlined_skeletonOf hop hnever hvalue hr
    rw [inlined] at hclause
    exact .ok (hclause ▸ hfills)

/-- A rule that is refused with parameters is so in plain SQL, and one that is written is
its draft with the literals. -/
theorem writeRule_inlined {r : Rule} (hvalueHook : plan.valueHook = .absent)
    (hruleHook : plan.ruleHook = .absent) (hnever : plan.style.policy = .never)
    (hnumeric : plan.hasNumericField r = false)
    (hr : r.comparesFields = false → Inlinable plan.style r) (before : List Slot) (path : Path) :
    Writer.Abreast (fun _ => {}) (fun _ => {}) SameFault (Fills literalMark before)
      (draftWriter.writeRule (Binding.unnumbered.plan plan) path r {})
      (plainWriter.writeRule plan path r {}) := by
  have hrefl : ∀ e, SameFault e e := fun _ => rfl
  have hrule : (Binding.unnumbered.plan plan).ruleHook = .absent := hruleHook
  rw [Writer.writeRule_apply _ hrule, Writer.writeRule_apply _ hruleHook]
  refine .after hrefl fun field hfield => ?_
  rw [forField_plan]
  cases hop : r.operator? with
  | none =>
    rw [Writer.canExpress_of_none hop, Writer.canExpress_of_none hop]
    exact .error rfl
  | some op =>
    have hdraft : draftWriter.dialect.supports op = true := rfl
    have hplain : plainWriter.dialect.supports op = true := rfl
    rw [Writer.canExpress_of_supports hop hdraft, Writer.canExpress_of_supports hop hplain]
    cases hplan : plan.forField field with
    | error e => exact .error rfl
    | ok plan' =>
      have hfield' : plan.fieldOf r path = .ok field := hfield
      obtain rfl := FormatPlan.eq_self_of_forField hfield' hnumeric hplan
      exact write_inlined hop hvalueHook hnever hr before (some ⟨path, 0, field⟩)

end

/-- **Plain SQL, one draft.**  A tree is written as plain SQL in lockstep with its draft. -/
theorem lockstep_inlined {plan : FormatPlan} (hvalueHook : plan.valueHook = .absent)
    (hruleHook : plan.ruleHook = .absent) (hnever : plan.style.policy = .never) :
    Writer.Lockstep draftWriter (Binding.unnumbered.plan plan) plainWriter plan (fun _ => {})
      (fun _ => {}) SameFault (Fills literalMark) fun r =>
        plan.hasNumericField r = false ∧ (r.comparesFields = false → Inlinable plan.style r) :=
  lockstep_of_rules isMark_literalMark rfl (fun _ _ _ _ => rfl) fun hr before path =>
    writeRule_inlined hvalueHook hruleHook hnever hr.1 hr.2 before path

section
variable {plan : FormatPlan} {t : Node}

/-- A plan that leaves rules and values to the library and takes no text for a number. -/
structure WritesTexts (plan : FormatPlan) : Prop where
  valueHook : plan.valueHook = .absent
  ruleHook : plan.ruleHook = .absent
  never : plan.style.policy = .never

/-- The parameters of every rule can be written out, and no field is numeric. -/
def InlinableTree (plan : FormatPlan) (t : Node) : Prop :=
  ∀ r ∈ t.rules, plan.hasNumericField r = false ∧
    (r.comparesFields = false → Inlinable plan.style r)

/-- A tree is plain SQL as its draft with the literals; an empty one is what the plan has
for it. -/
theorem plain_of_ok (hplan : WritesTexts plan) (ht : InlinableTree plan t) {d : Option Draft}
    {bindings : Bindings}
    (h : draftWriter.run (Binding.unnumbered.plan plan) t = .ok (d, bindings)) :
    plain plan t = .ok ((d.map fun d => Value.text (d.fill
      (d.slots.map fun slot => literal .never slot.value))).getD
        (plan.fallbackOr (.text always))) := by
  have hrun : Writer.Abreast (fun _ : List Slot => {}) (fun _ => {}) SameFault
      (Writer.Maybe (Fills literalMark) []) (draftWriter.run (Binding.unnumbered.plan plan) t)
      (plainWriter.run plan t) :=
    (lockstep_inlined hplan.valueHook hplan.ruleHook hplan.never).run rfl rfl rfl rfl ht
  rw [h] at hrun
  rw [plain, Writer.within_none]
  generalize plainWriter.run plan t = x at hrun
  cases hrun with
  | ok hout =>
    rw [Result.ok_bind]
    cases hout with
    | none => rfl
    | some hfills =>
      obtain ⟨rfl, -⟩ := hfills
      rw [along_literalMark]
      rfl

/-- The plan of parameters that are numbered behind a prefix. -/
def numberedBehind (p : String) (plan : FormatPlan) : FormatPlan :=
  Binding.numbered.plan (remarked plan.names (.text p) plan)

/-- A draft with names for its parameters is the draft without. -/
theorem draft_namedPerField (hplan : WritesTexts plan) (paramPrefix : Value) :
    draftWriter.run
        (Binding.unnumbered.plan (namedPerField (remarked plan.names paramPrefix plan))) t =
      draftWriter.run (Binding.unnumbered.plan plan) t :=
  draft_remarked (plan.names.orElse NameSource.perField) paramPrefix hplan.valueHook hplan.ruleHook

/-- A tree with parameters bound by position is its draft, whatever marks them. -/
theorem bound_of_draft (hplan : WritesTexts plan) {d : Option Draft} {bindings : Bindings}
    (h : draftWriter.run (Binding.unnumbered.plan plan) t = .ok (d, bindings)) {b : Binding}
    (hb : b ≠ .named) (paramPrefix : Value) :
    bound b.dialect (b.plan (remarked plan.names paramPrefix plan)) t =
      .ok ⟨(d.map fun d => Value.text (d.fill
            (along (b.mark { plan.style with paramPrefix := paramPrefix }) [] d.slots))).getD
          (plan.fallbackOr (.text always)),
        .list ((d.getD []).slots.map (·.value))⟩ := by
  have hvalueHook : (remarked plan.names paramPrefix plan).valueHook = .absent := hplan.valueHook
  have hbound := bound_of_ok b hvalueHook hplan.ruleHook (fun h => absurd h hb)
    (fun h => absurd h hb) ((draft_namedPerField hplan paramPrefix).trans h)
  cases b with
  | named => exact absurd rfl hb
  | unnumbered | numbered => exact hbound

/-- **Trees.**  A tree with question marks has one row of texts: with numbers between
them it is the tree with numbered parameters, and with literals it is plain SQL. -/
theorem plain_of_bound (hplan : WritesTexts plan) (ht : InlinableTree plan t) {sql : String}
    {params : Value}
    (h : bound .parameterized (Binding.unnumbered.plan plan) t = .ok ⟨.text sql, params⟩) :
    ∃ (first : String) (texts : List String) (values : List Value),
      params = .list values ∧ texts.length = values.length ∧
      sql = weave first (List.replicate values.length "?") texts ∧
      (∀ p, bound .parameterized (numberedBehind p plan) t =
        .ok ⟨.text (weave first ((List.range values.length).map fun i =>
          p ++ Value.natText (i + 1)) texts), .list values⟩) ∧
      plain plan t = .ok (.text (weave first (values.map (literal .never)) texts)) := by
  have hunnumbered : Binding.unnumbered ≠ .named := fun h => by cases h
  have hnumbered : Binding.numbered ≠ .named := fun h => by cases h
  cases hdraft : draftWriter.run (Binding.unnumbered.plan plan) t with
  | error e =>
    obtain ⟨e', he', -⟩ := bound_of_error .unnumbered hplan.valueHook hplan.ruleHook
      (fun h => absurd h hunnumbered) (fun h => absurd h hunnumbered)
      ((draft_namedPerField hplan plan.style.paramPrefix).trans hdraft)
    have herror : (.ok ⟨.text sql, params⟩ : Result BoundSql) = .error e' := h.symm.trans he'
    cases herror
  | ok out =>
    obtain ⟨d, bindings⟩ := out
    have hmarks := bound_of_draft hplan hdraft hunnumbered plan.style.paramPrefix
    have hnumbers (p : String) := bound_of_draft hplan hdraft hnumbered (.text p)
    have hplain := plain_of_ok hplan ht hdraft
    obtain ⟨hsql, hparams⟩ := BoundSql.mk.inj (Except.ok.inj (h.symm.trans hmarks))
    cases d with
    | none =>
      have hfallback : plan.fallbackOr (.text always) = .text sql := hsql.symm
      refine ⟨sql, [], [], hparams, rfl, rfl, fun p => (hnumbers p).trans ?_, hplain.trans ?_⟩
      · exact congrArg (fun v => Except.ok (BoundSql.mk v _)) hfallback
      · exact congrArg Except.ok hfallback
    | some d =>
      refine ⟨d.first, d.texts, d.slots.map (·.value), hparams, by simp [d.length_texts], ?_,
        fun p => (hnumbers p).trans ?_, hplain.trans ?_⟩
      · rw [List.length_map, ← Binding.along_unnumbered, ← Draft.fill_eq_weave (length_along _ _ _)]
        exact Value.text.inj hsql
      · have hfill : d.fill (along (Binding.numbered.mark { plan.style with
            paramPrefix := .text p }) [] d.slots) =
            weave d.first ((List.range (d.slots.map (·.value)).length).map fun i =>
              p ++ Value.natText (i + 1)) d.texts := by
          rw [Draft.fill_eq_weave (length_along _ _ _), Binding.along_numbered, List.length_map]
          simp only [List.length_nil, Nat.zero_add, Value.display_text]
        exact congrArg (fun s => Except.ok (BoundSql.mk (.text s) _)) hfill
      · rw [List.map_map, ← Function.comp_def, ← Draft.fill_eq_weave (List.length_map _)]
        rfl

end

/-! ### Queries -/

section
variable {o : FormatOptions} {plan : FormatPlan} {query : Node}

/-- Parameters are marked in a way of their own where plain SQL has the rest of the plan. -/
theorem resolve_parameterized
    (hplan : ({ o with format := .text "sql" } : FormatOptions).resolve = .ok plan) :
    ∃ preset, plan.style.numbered =
        (FormatOptions.orPreset o.numbered preset "numbered_params" (.bool false)).truthy ∧
      plan.style.paramPrefix = FormatOptions.orPreset o.paramPrefix preset "param_prefix"
        (.text (if plan.style.numbered then "$" else ":")) ∧
      ∀ numbered paramPrefix, ({ o with
          format := .text "parameterized", numbered := numbered, paramPrefix := paramPrefix } :
            FormatOptions).resolve =
        let numbered :=
          (FormatOptions.orPreset numbered preset "numbered_params" (.bool false)).truthy
        .ok { plan with style := { plan.style with
          format := .dialect .parameterized
          numbered := numbered
          paramPrefix := FormatOptions.orPreset paramPrefix preset "param_prefix"
            (.text (if numbered then "$" else ":")) } } := by
  obtain ⟨format, -, hplan⟩ := Result.bind_eq_ok hplan
  obtain ⟨preset, hpreset, hplan⟩ := Result.bind_eq_ok hplan
  obtain ⟨policy, hpolicy, hplan⟩ := Result.bind_eq_ok hplan
  obtain ⟨quotes, hquotes, hplan⟩ := Result.bind_eq_ok hplan
  obtain ⟨fields, hfields, hplan⟩ := Result.bind_eq_ok hplan
  obtain rfl := Except.ok.inj hplan
  have hformat : FormatOptions.formatOf (.text "parameterized") = .ok (.dialect .parameterized) :=
    rfl
  refine ⟨preset, rfl, rfl, fun numbered paramPrefix => ?_⟩
  dsimp only at hpreset hpolicy hquotes hfields
  unfold FormatOptions.resolve
  simp only [hformat, hpreset, hpolicy, hquotes, hfields, Result.ok_bind]
  rfl

theorem resolve_unnumbered
    (hplan : ({ o with format := .text "sql" } : FormatOptions).resolve = .ok plan)
    (hmarks : plan.style.numbered = false) :
    ({ o with format := .text "parameterized" } : FormatOptions).resolve =
      .ok (Binding.unnumbered.plan plan) := by
  obtain ⟨preset, hnumbered, hprefix, hresolve⟩ := resolve_parameterized hplan
  rw [hmarks] at hnumbered hprefix
  refine (hresolve o.numbered o.paramPrefix).trans ?_
  simp only [← hnumbered]
  rw [← hprefix]
  rfl

theorem resolve_numbered
    (hplan : ({ o with format := .text "sql" } : FormatOptions).resolve = .ok plan) (p : String) :
    ({ o with format := .text "parameterized", numbered := .bool true, paramPrefix := .text p } :
      FormatOptions).resolve = .ok (numberedBehind p plan) := by
  obtain ⟨preset, -, -, hresolve⟩ := resolve_parameterized hplan
  exact hresolve (.bool true) (.text p)

theorem style_format_of_resolve
    (hplan : ({ o with format := .text "sql" } : FormatOptions).resolve = .ok plan) :
    plan.style.format = .dialect .sql := by
  obtain ⟨format, hformat, hplan⟩ := Result.bind_eq_ok hplan
  obtain ⟨preset, -, hplan⟩ := Result.bind_eq_ok hplan
  obtain ⟨policy, -, hplan⟩ := Result.bind_eq_ok hplan
  obtain ⟨quotes, -, hplan⟩ := Result.bind_eq_ok hplan
  obtain ⟨fields, -, hplan⟩ := Result.bind_eq_ok hplan
  obtain rfl := Except.ok.inj hplan
  exact (Except.ok.inj hformat).symm

theorem format_of_resolve {t : Node} {d : Dialect} (hplan : o.resolve = .ok plan)
    (hformat : plan.style.format = .dialect d) (htree : Query.ofInput query = .ok t) :
    Query.format o query = Query.write d plan t := by
  rw [Query.format, hplan, Result.ok_bind, htree, Result.ok_bind, hformat]
  rfl

/-- **Plain SQL is SQL with its parameters written out.**  Where a query with question
marks is a row of texts with parameters between them, plain SQL has the same texts with
the literals of the parameters between them.  The marks are told from question marks in
the texts by the numbers that stand in their places once parameters are numbered. -/
theorem format_inlined {t : Node} {sql : String} {params : List Value}
    (hplan : ({ o with format := .text "sql" } : FormatOptions).resolve = .ok plan)
    (hwrites : WritesTexts plan) (hmarks : plan.style.numbered = false)
    (htree : Query.ofInput query = .ok t) (ht : InlinableTree plan t)
    (h : Query.format { o with format := .text "parameterized" } query =
      .ok (.bound ⟨.text sql, .list params⟩)) :
    ∃ (first : String) (texts : List String), texts.length = params.length ∧
      sql = weave first (List.replicate params.length "?") texts ∧
      (∀ p, Query.format { o with
          format := .text "parameterized", numbered := .bool true, paramPrefix := .text p } query =
        .ok (.bound ⟨.text (weave first
            ((List.range params.length).map fun i => p ++ Value.natText (i + 1)) texts),
          .list params⟩)) ∧
      Query.format { o with format := .text "sql" } query =
        .ok (.value (.text (weave first (params.map (literal .never)) texts))) := by
  have hquestion := resolve_unnumbered hplan hmarks
  rw [format_of_resolve hquestion rfl htree] at h
  obtain ⟨clause, hbound, hclause⟩ := Result.map_eq_ok h
  obtain rfl := Query.Output.bound.inj hclause
  obtain ⟨first, texts, values, hparams, hlength, hsql, hnumbers, hliterals⟩ :=
    plain_of_bound hwrites ht hbound
  obtain rfl := Value.list.inj hparams
  refine ⟨first, texts, hlength, hsql, fun p => ?_, ?_⟩
  · rw [format_of_resolve (resolve_numbered hplan p) rfl htree]
    exact congrArg (Except.map Query.Output.bound) (hnumbers p)
  · rw [format_of_resolve hplan (style_format_of_resolve hplan) htree]
    exact congrArg (Except.map Query.Output.value) hliterals

end

/-- A range, a text match and a row of values with a quote in it, under a negation. -/
def literalSpecimen : Node :=
  .group (.text "or") {}
    [.rule (Rule.of "age" .between (.list [.int 18, .int 65])),
      .rule (Rule.of "name" .beginsWith (.text "A")),
      .group (.text "and") { negated := true }
        [.rule (Rule.of "team" .isIn (.list [.int 1, .text "it's"]))]]

theorem format_inlined_specimen :
    ∃ (first : String) (texts : List String), texts.length = 5 ∧
      "(age between ? and ? or name like ? or NOT (team in (?, ?)))" =
        weave first (List.replicate 5 "?") texts ∧
      (∀ p, Query.format {
          format := .text "parameterized", numbered := .bool true, paramPrefix := .text p }
            literalSpecimen =
        .ok (.bound ⟨.text (weave first
            ((List.range 5).map fun i => p ++ Value.natText (i + 1)) texts),
          .list [.int 18, .int 65, .text "A%", .int 1, .text "it's"]⟩)) ∧
      Query.format { format := .text "sql" } literalSpecimen =
        .ok (.value (.text (weave first
          ([.int 18, .int 65, .text "A%", .int 1, .text "it's"].map (literal .never)) texts))) := by
  have hplan : ({ format := .text "sql" } : FormatOptions).resolve =
      .ok { style := { format := .dialect .sql } } := rfl
  have htree : InlinableTree { style := { format := .dialect .sql } } literalSpecimen := by
    have hrange : (Rule.of "age" .between (.list [.int 18, .int 65])).operator? = some .between :=
      Rule.operator?_ofSource ..
    have hmatch : (Rule.of "name" .beginsWith (.text "A")).operator? = some .beginsWith :=
      Rule.operator?_ofSource ..
    have hrow : (Rule.of "team" .isIn (.list [.int 1, .text "it's"])).operator? = some .isIn :=
      Rule.operator?_ofSource ..
    simp only [InlinableTree, literalSpecimen, Node.rules_group, Node.rules_rule, List.flatMap_cons,
      List.flatMap_nil, List.append_nil, List.singleton_append, List.forall_mem_cons]
    refine ⟨⟨rfl, fun _ => ⟨?_, ?_, ?_⟩⟩, ⟨rfl, fun _ => ⟨?_, ?_, ?_⟩⟩,
      ⟨rfl, fun _ => ⟨?_, ?_, ?_⟩⟩, by simp⟩
    · exact fun _ _ _ => ⟨'a', _, rfl, by decide⟩
    · exact fun _ _ _ _ hvalue => by cases hvalue
    · intro op hop htext
      obtain rfl := Option.some.inj (hrange.symm.trans hop)
      cases htext
    · exact fun _ _ _ => ⟨'n', _, rfl, by decide⟩
    · intro op s _ _ hvalue
      obtain rfl : "A" = s := Value.text.inj hvalue
      decide
    · intro _ _ _
      decide
    · exact fun _ _ _ => ⟨'t', _, rfl, by decide⟩
    · exact fun _ _ _ _ hvalue => by cases hvalue
    · intro op hop htext
      obtain rfl := Option.some.inj (hrow.symm.trans hop)
      cases htext
  have hformat : Query.format { format := .text "parameterized" } literalSpecimen =
      .ok (.bound ⟨.text "(age between ? and ? or name like ? or NOT (team in (?, ?)))",
        .list [.int 18, .int 65, .text "A%", .int 1, .text "it's"]⟩) := rfl
  exact format_inlined (o := {}) hplan ⟨rfl, rfl, rfl⟩ rfl rfl htree hformat

/-- A row of values on a field without a name. -/
def namelessSpecimen : Node := .group (.text "and") {} [.rule (Rule.of "" .isIn (.list [.text "a"]))]

/-- A field without a name has no outer blanks, and yet its row of values is written
with a blank before it where parameters stand and without one where literals do. -/
theorem format_inlined_nameless :
    trim (fieldText {} (.text "")) = fieldText {} (.text "") ∧
      Query.format { format := .text "parameterized" } namelessSpecimen =
        .ok (.bound ⟨.text "( in (?))", .list [.text "a"]⟩) ∧
      Query.format { format := .text "sql" } namelessSpecimen =
        .ok (.value (.text "(in ('a'))")) ∧
      ∀ (first : String) (texts : List String), "( in (?))" = weave first ["?"] texts →
        weave first [literal .never (.text "a")] texts ≠ "(in ('a'))" := by
  refine ⟨by decide, rfl, rfl, fun first texts hsql hplain => ?_⟩
  have hliteral : literal .never (.text "a") = "'a'" := by decide
  rw [hliteral] at hplain
  cases texts with
  | nil =>
    have hsame : "( in (?))" = "(in ('a'))" := hsql.trans hplain
    exact absurd hsame (by decide)
  | cons text texts =>
    have hmark : "( in (?))" = first ++ "?" ++ text := hsql
    have hvalue : first ++ "'a'" ++ text = "(in ('a'))" := hplain
    have hlength := congrArg String.length hmark
    have hlength' := congrArg String.length hvalue
    have hleft : "( in (?))".length = 9 := rfl
    have hright : "(in ('a'))".length = 10 := rfl
    have hquestion : "?".length = 1 := rfl
    have hletter : "'a'".length = 3 := rfl
    simp only [String.length_append, hleft, hright, hquestion, hletter] at hlength hlength'
    omega

end Sql
end RuleTree
