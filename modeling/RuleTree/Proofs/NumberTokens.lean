import RuleTree.Expression.Cel
import RuleTree.Expression.Spel
import RuleTree.Expression.Writing
import RuleTree.Sql.Grammar
import RuleTree.Proofs.Conversions
import RuleTree.Proofs.Tokens

/-! # Numbers as tokens

A text that a policy takes for a number is written without quotes: as it is, if it is a complete
numeral, and else as the number that it is converted to.  Integers and finite floating point
numbers are written as numerals (`Value.spells_intText`, `Binary64.exists_spells_text`), which
every language reads as one number token (`Lexicon.spells_number`).  A text that is converted to a
number out of the range of the format is the exception: it is written with the letters of
infinity, which read as a name.
-/
namespace RuleTree
open Text Numeral Source

/-! ### Numbers are written as numerals -/

theorem Value.spells_intText (n : Int) : Spells (ofInt n) (intText n).toList :=
  read?_eq_some_nil_iff.mp (read?_intText_self n)

namespace Decimal

theorem isDigit_of_mem_toDigits {n : Nat} {c : Char} (h : c ∈ Nat.toDigits 10 n) :
    isDigit c = true :=
  isDigit_of_isDigit (Nat.isDigit_of_mem_toDigits (by decide) (by decide) h)

theorem isDigit_of_mem_zeros {n : Nat} {c : Char} (h : c ∈ List.replicate n '0') :
    isDigit c = true := by
  rw [List.eq_of_mem_replicate h]
  decide

theorem isDigit_of_mem_padded {width n : Nat} {c : Char} (h : c ∈ padded width n) :
    isDigit c = true :=
  (List.mem_append.mp h).elim isDigit_of_mem_zeros isDigit_of_mem_toDigits

theorem padded_ne_nil (width n : Nat) : padded width n ≠ [] := by
  simp [padded, Nat.toDigits_ne_nil]

/-- A decimal is written with a point or an exponent, and with digits where they are due. -/
theorem exists_digits_text (layout : Layout) (x : Decimal) :
    ∃ whole fraction power exponent, x.text layout = whole ++ (fractionText fraction ++ exponent) ∧
      IsDigital whole fraction ∧ SpellsExponent power exponent ∧
        (fraction.getD [] = [] → power ≠ none) := by
  unfold text
  dsimp only
  generalize hds : Nat.toDigits 10 (trimZeros 20 x).digits = ds
  have hdigits : ∀ c ∈ ds, isDigit c = true := hds ▸ fun c => isDigit_of_mem_toDigits
  have hne : ds ≠ [] := hds ▸ Nat.toDigits_ne_nil
  have hzero : isDigit '0' = true := by decide
  generalize (ds.length : Int) + (trimZeros 20 x).exponent = point
  split
  · split
    · refine ⟨['0'], some (List.replicate (-point).toNat '0' ++ ds), none, [], by simp [fractionText],
        ⟨by simp [hzero], ?_, by simp⟩, .none, by simp [hne]⟩
      exact List.forall_mem_append.mpr ⟨fun _ => isDigit_of_mem_zeros, hdigits⟩
    · split
      · refine ⟨ds ++ List.replicate (point.toNat - ds.length) '0', some ['0'], none, [],
          by simp [fractionText], ⟨?_, by simp [hzero], by simp⟩, .none, by simp⟩
        exact List.forall_mem_append.mpr ⟨hdigits, fun _ => isDigit_of_mem_zeros⟩
      · rename_i hpoint
        have hdrop : ds.drop point.toNat ≠ [] := by
          rw [ne_eq, List.drop_eq_nil_iff]
          omega
        exact ⟨ds.take point.toNat, some (ds.drop point.toNat), none, [], by simp [fractionText],
          ⟨fun c hc => hdigits c (List.mem_of_mem_take hc),
            fun c hc => hdigits c (List.mem_of_mem_drop hc), Or.inr hdrop⟩, .none,
          fun hnone => absurd hnone hdrop⟩
  · have hexponent : ∀ b : Bool, SpellsExponent (some (b, padded layout.exponentWidth (point - 1).natAbs))
        ('e' :: (if b then '-' else '+') :: padded layout.exponentWidth (point - 1).natAbs) := by
      intro b
      cases b
      · exact .some (Or.inl rfl) .plus (padded_ne_nil _ _) fun _ => isDigit_of_mem_padded
      · exact .some (Or.inl rfl) .minus (padded_ne_nil _ _) fun _ => isDigit_of_mem_padded
    have hpower := hexponent (decide (point - 1 < 0))
    simp only [decide_eq_true_eq] at hpower
    split
    · rename_i d e es
      obtain ⟨hd, hes⟩ := List.forall_mem_cons.mp hdigits
      exact ⟨[d], some (e :: es), _, _, by simp [fractionText], ⟨by simp [hd], hes, by simp⟩, hpower,
        fun _ => by simp⟩
    · exact ⟨ds, none, _, _, by simp [fractionText], ⟨hdigits, by simp, Or.inl hne⟩, hpower,
        fun _ => by simp⟩

end Decimal

namespace Binary64

/-- A finite number is written as a numeral, and not as an integer. -/
theorem exists_spells_text (negative : Bool) (mantissa : Nat) (exponent : Int) :
    ∃ x, Spells x (Binary64.finite negative mantissa exponent).text.toList ∧
      x.isInteger = false := by
  obtain ⟨whole, fraction, power, e, htext, hdigits, hpower, hfraction⟩ :
      ∃ whole fraction power e,
        (if mantissa = 0 then ['0', '.', '0'] else (shortest mantissa exponent).text floatLayout) =
          whole ++ (fractionText fraction ++ e) ∧ IsDigital whole fraction ∧
            SpellsExponent power e ∧ (fraction.getD [] = [] → power ≠ none) := by
    split
    · have hzero : ∀ c ∈ ['0'], isDigit c = true := List.forall_mem_singleton.mpr (by decide)
      exact ⟨['0'], some ['0'], none, [], rfl, ⟨hzero, hzero, by simp⟩, .none, by simp⟩
    · exact Decimal.exists_digits_text ..
  have hinteger (negative : Bool) :
      (⟨negative, whole, fraction, power⟩ : Numeral).isInteger = false := by
    simpa [isInteger, fractionDigits, Option.isSome_iff_ne_none] using hfraction
  rw [text, htext, String.toList_ofList]
  cases negative with
  | false =>
    exact ⟨_, Spells.intro (x := ⟨false, whole, fraction, power⟩) .none hdigits hpower, hinteger _⟩
  | true =>
    exact ⟨_, Spells.intro (x := ⟨true, whole, fraction, power⟩) .minus hdigits hpower, hinteger _⟩

/-- Infinity is written with letters. -/
theorem not_spells_text_infinite (negative : Bool) (x : Numeral) :
    ¬Spells x (Binary64.infinite negative).text.toList := by
  intro h
  have hnone : Numeral.read? (Binary64.infinite negative).text.toList = none := by
    cases negative <;> rfl
  rw [h.read?] at hnone
  exact Option.some_ne_none _ hnone

theorem ofQuotient_ne_nan (negative : Bool) (num den : Nat) :
    ofQuotient negative num den ≠ .nan := by
  fun_cases ofQuotient negative num den <;> simp [zero]

theorem ofDecimal_ne_nan (negative : Bool) (digits : Nat) (exponent : Int) :
    ofDecimal negative digits exponent ≠ .nan := by
  unfold ofDecimal
  dsimp only
  split
  · simp [zero]
  split
  · simp
  split
  · simp [zero]
  · exact ofQuotient_ne_nan _ _ _

end Binary64

theorem Numeral.value_ne_nan (x : Numeral) : x.value ≠ .float .nan := by
  unfold value
  split
  · simp
  · exact fun he => Binary64.ofDecimal_ne_nan _ _ _ (Number.float.inj he)

/-- No text is converted to what is no number. -/
theorem NumberPolicy.convert?_ne_nan (policy : NumberPolicy) (cs : List Char) :
    policy.convert? cs ≠ some (.float .nan) := by
  intro h
  obtain ⟨x, -, hx⟩ := Option.map_eq_some_iff.mp h
  exact x.value_ne_nan hx

/-! ### Numerals are number tokens -/

namespace Source

/-- What a numeral may start with. -/
def startsNumeral (c : Char) : Bool := Text.isDigit c || c == '+' || c == '-' || c == '.'

theorem exists_startsNumeral {x : Numeral} {w : List Char} (h : Spells x w) :
    ∃ c cs, w = c :: cs ∧ startsNumeral c = true := by
  obtain ⟨hsign, hdigits, hexponent⟩ := h
  generalize x.negative = negative at hsign
  cases hsign with
  | plus => exact ⟨'+', _, rfl, rfl⟩
  | minus => exact ⟨'-', _, rfl, rfl⟩
  | none =>
    cases hwhole : x.whole with
    | cons c cs =>
      have hc : Text.isDigit c = true := hdigits.isDigit_whole c (by simp [hwhole])
      exact ⟨c, _, rfl, by simp [startsNumeral, hc]⟩
    | nil =>
      cases hfraction : x.fraction with
      | some ds => exact ⟨'.', _, rfl, rfl⟩
      | none => exact absurd hdigits.nonempty (by simp [hwhole, hfraction])

/-- A numeral is a number token, where no word or text starts like one. -/
theorem Lexicon.spells_number {l : Lexicon} {after : List Terminal} (before : List Terminal)
    (hl : l.terminals = before ++ .number :: after)
    (hbefore : ∀ u ∈ before, ∀ c, startsNumeral c = true → ∀ cs, l.extent? u c cs = none)
    {x : Numeral} {w : List Char} (h : Numeral.Spells x w) : l.Spells w (.number w) := by
  obtain ⟨c, cs, rfl, hc⟩ := exists_startsNumeral h
  have hspace : isSpace c = false := by
    refine isSpace_eq_false (p := fun c => !isBlank c) (List.all_iff_forall_prop.mp (by decide)) ?_
    simp [h.isBlank_eq_false (List.mem_cons_self)]
  refine spells_of_first before hl (by decide) hspace (fun u hu rest => hbefore u hu c hc _) ?_ rfl
  intro rest hrest
  have hread := h.read?_append hrest.endsHere
  rw [List.cons_append] at hread
  simp [extent?, numberExtent?, hread]

/-- No name and no quote starts like a numeral. -/
theorem not_starts {c : Char} (hc : startsNumeral c = true) :
    isFoldedLetter c = false ∧ c ≠ '_' ∧ c ∉ ['"', '\x60', '[', '\''] := by
  have hdigits {p : Char → Bool} (h : ∀ z ∈ digitZeros, ∀ i < 10, p (Char.ofNat (z + i)) = true)
      (hplus : p '+' = true) (hminus : p '-' = true) (hpoint : p '.' = true) : p c = true := by
    simp only [startsNumeral, Bool.or_eq_true, beq_iff_eq] at hc
    rcases hc with ((hc | rfl) | rfl) | rfl
    · exact forall_isDigit h hc
    · exact hplus
    · exact hminus
    · exact hpoint
  have hall := hdigits
    (p := fun c => !isFoldedLetter c && c != '_' && !(['"', '\x60', '[', '\''].contains c))
    (by decide +kernel) (by decide) (by decide) (by decide)
  simpa [and_assoc] using hall

end Source

theorem Sql.spells_number {x : Numeral} {w : List Char} (h : Spells x w) :
    Sql.lexicon.Spells w (.number w) := by
  refine Lexicon.spells_number [.name, .quotedName, .text] rfl (fun u hu c hc cs => ?_) h
  obtain ⟨hletter, hscore, hquote⟩ := not_starts hc
  simp only [List.mem_cons, List.not_mem_nil, or_false, not_or] at hu hquote
  rcases hu with rfl | rfl | rfl <;>
    simp [Lexicon.extent?, lexicon, wordExtent?, nameExtent?, startsName, hletter, hscore, hquote]

theorem Cel.spells_number {x : Numeral} {w : List Char} (h : Spells x w) :
    Cel.lexicon.Spells w (.number w) := by
  refine Lexicon.spells_number [.name, .text] rfl (fun u hu c hc cs => ?_) h
  obtain ⟨hletter, hscore, hquote⟩ := not_starts hc
  simp only [isFoldedLetter, Bool.or_eq_false_iff] at hletter
  simp only [List.mem_cons, List.not_mem_nil, or_false, not_or] at hu hquote
  rcases hu with rfl | rfl <;>
    simp [Lexicon.extent?, lexicon, wordExtent?, dottedExtent?, startsName, hletter, hscore, hquote]

theorem Spel.spells_number {x : Numeral} {w : List Char} (h : Spells x w) :
    Spel.lexicon.Spells w (.number w) := by
  refine Lexicon.spells_number [.name, .text] rfl (fun u hu c hc cs => ?_) h
  obtain ⟨hletter, hscore, hquote⟩ := not_starts hc
  simp only [List.mem_cons, List.not_mem_nil, or_false, not_or] at hu hquote
  rcases hu with rfl | rfl <;>
    simp [Lexicon.extent?, lexicon, wordExtent?, dottedExtent?, startsName, hletter, hscore, hquote]

/-! ### Literals of numeric texts -/

/-- The text that a policy takes for a number, as it is written without quotes. -/
def NumberPolicy.numberText (policy : NumberPolicy) (s : String) : String :=
  if (Value.text s).isNumericText then trim s else ((Value.text s).withNumbers policy).display

/-- The writer of one value in a language, and how the tokens of the language are spelled. -/
structure ValueWriter where
  literal : NumberPolicy → Value → String
  lexicon : Lexicon

/-- The writers that leave out the quotes of numbers. -/
def ValueWriter.all : List ValueWriter :=
  [⟨Sql.literal, Sql.lexicon⟩, ⟨Language.cel.literal, Cel.lexicon⟩,
    ⟨Language.spel.literal, Spel.lexicon⟩]

section
variable {policy : NumberPolicy} {s : String}

theorem ValueWriter.literal_eq {w : ValueWriter} (hw : w ∈ ValueWriter.all)
    (h : (Value.text s).rendersAsNumber policy = true) :
    w.literal policy (.text s) = policy.numberText s := by
  simp only [all, List.mem_cons, List.not_mem_nil, or_false] at hw
  rcases hw with rfl | rfl | rfl <;>
    simp [Sql.literal, Language.literal, h, NumberPolicy.numberText, Value.trimmed]

theorem ValueWriter.spells {w : ValueWriter} (hw : w ∈ ValueWriter.all) {x : Numeral}
    {cs : List Char} (h : Spells x cs) : w.lexicon.Spells cs (.number cs) := by
  simp only [all, List.mem_cons, List.not_mem_nil, or_false] at hw
  rcases hw with rfl | rfl | rfl
  · exact Sql.spells_number h
  · exact Cel.spells_number h
  · exact Spel.spells_number h

/-- The text of a number is a numeral unless the number is out of range. -/
theorem NumberPolicy.exists_spells_numberText_iff
    (h : (Value.text s).rendersAsNumber policy = true) :
    (∃ x, Spells x (policy.numberText s).toList) ↔
      ((Value.text s).isNumericText = true ∨
        ∀ negative, policy.convert? s.toList ≠ some (.float (.infinite negative))) := by
  unfold numberText
  by_cases hnumeric : (Value.text s).isNumericText = true
  · obtain ⟨x, hx, -⟩ := isStrict_iff.mp hnumeric
    simp only [hnumeric, if_true, true_or, iff_true]
    exact ⟨x, by rwa [trim, String.toList_ofList]⟩
  · obtain ⟨n, hn⟩ := Option.isSome_iff_exists.mp (isSome_convert?_of_accepts h)
    have hvalue : (Value.text s).withNumbers policy = .ofNumber n := by
      simp [Value.withNumbers, hn]
    rw [if_neg hnumeric, hvalue, hn]
    simp only [hnumeric, Bool.false_eq_true, false_or]
    cases n with
    | int k =>
      simp only [Value.ofNumber, Value.display_int]
      exact ⟨fun _ => by simp, fun _ => ⟨_, Value.spells_intText k⟩⟩
    | float x =>
      simp only [Value.ofNumber, Value.display, Value.inspect]
      cases x with
      | nan => exact absurd hn (policy.convert?_ne_nan _)
      | finite negative mantissa exponent =>
        obtain ⟨x, hx, -⟩ := Binary64.exists_spells_text negative mantissa exponent
        exact ⟨fun _ => by simp, fun _ => ⟨x, hx⟩⟩
      | infinite negative =>
        constructor
        · rintro ⟨x, hx⟩
          exact absurd hx (Binary64.not_spells_text_infinite negative x)
        · exact fun hne => absurd rfl (hne negative)

end

/-- Numeric texts are written as numbers.  Wherever a policy takes a text for a number, the
literal of every language is a number of its grammar, and one token for that number wherever a
value may come, exactly if the text is a complete numeral or its number is in the range of the
format. -/
theorem literal_numeral_iff (policy : NumberPolicy) (s : String)
    (h : (Value.text s).rendersAsNumber policy = true) (w : ValueWriter) (hw : w ∈ ValueWriter.all) :
    ((w.literal policy (.text s)).toList ∈ NumberShape.numeral ↔
      ((Value.text s).isNumericText = true ∨
        ∀ negative, policy.convert? s.toList ≠ some (.float (.infinite negative)))) ∧
    ((w.literal policy (.text s)).toList ∈ NumberShape.numeral →
      w.lexicon.Spells (w.literal policy (.text s)).toList
        (.number (w.literal policy (.text s)).toList)) := by
  rw [ValueWriter.literal_eq hw h, NumberShape.mem_numeral]
  refine ⟨NumberPolicy.exists_spells_numberText_iff h, ?_⟩
  rintro ⟨x, hx⟩
  exact ValueWriter.spells hw hx

/-- A number with grouping marks is written without them. -/
theorem literal_numeral_iff_grouped :
    (Sql.literal .enhanced (.text "-1_000.50")).toList ∈ NumberShape.numeral ∧
      Sql.lexicon.Spells (Sql.literal .enhanced (.text "-1_000.50")).toList
        (.number (Sql.literal .enhanced (.text "-1_000.50")).toList) := by
  obtain ⟨hiff, htoken⟩ := literal_numeral_iff .enhanced "-1_000.50" (by decide)
    ⟨Sql.literal, Sql.lexicon⟩ List.mem_cons_self
  have hnumeral := hiff.mpr (Or.inr (by decide))
  exact ⟨hnumeral, htoken hnumeral⟩

/-- A number out of range is written with letters, which are read as a name. -/
theorem literal_numeral_iff_overflow :
    (Value.text "1_0e999").rendersAsNumber .enhanced = true ∧
      (∀ w ∈ ValueWriter.all, w.literal .enhanced (.text "1_0e999") = "inf" ∧
        w.lexicon.token? (.name :: literals) 'i' ['n', 'f'] = some ⟨.name, "inf".toList⟩) ∧
      "inf".toList ∉ NumberShape.numeral := by
  have hrenders : (Value.text "1_0e999").rendersAsNumber .enhanced = true := by decide
  have htext : NumberPolicy.enhanced.numberText "1_0e999" = "inf" := by decide +kernel
  refine ⟨hrenders, fun w hw => ⟨(ValueWriter.literal_eq hw hrenders).trans htext, ?_⟩, ?_⟩
  · simp only [ValueWriter.all, List.mem_cons, List.not_mem_nil, or_false] at hw
    rcases hw with rfl | rfl | rfl <;> rfl
  · rw [NumberShape.mem_numeral]
    rintro ⟨x, hx⟩
    exact Binary64.not_spells_text_infinite false x hx

end RuleTree
