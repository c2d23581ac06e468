import RuleTree.Proofs.Conversions
import RuleTree.Source.Reading

/-! # The values of number tokens

The numbers of a source are the numerals of `NumberShape.numeral`, and their values are what the
strict policy makes of their texts.  The two languages are not the same: a numeral may end with its
point, or have nothing but the exponent behind it, and the strict policy asks for digits there.
Such a numeral stays a text (`numberValue_eq_text`), and of the others those without a point and an
exponent are the integers (`numberValue_isNumber_iff`, `exists_int_iff`).
-/
namespace RuleTree
open Text Numeral NumberShape Source
open scoped Computability

namespace NumberShape

/-- A numeral with digits on the right of every point. -/
def completeNumeral : Language Char := sign * (complete * optional exponent)

/-- A run of digits with a sign or none. -/
def integer : Language Char := sign * digits

variable {w : List Char}

theorem mem_completeNumeral :
    w ∈ completeNumeral ↔ ∃ x, Spells x w ∧ x.fraction ≠ some [] :=
  mem_signed fun _ => mem_complete

theorem mem_integer :
    w ∈ integer ↔ ∃ x, Spells x w ∧ x.fraction = none ∧ x.exponent = none := by
  rw [integer, Language.mem_mul]
  constructor
  · rintro ⟨s, hs, ds, hds, rfl⟩
    obtain ⟨negative, hsign⟩ := mem_sign.mp hs
    obtain ⟨hne, hall⟩ := mem_digits.mp hds
    have hspells := Spells.intro (x := ⟨negative, ds, none, none⟩) hsign
      ⟨hall, by simp, Or.inl hne⟩ .none
    rw [fractionText, List.append_nil, List.append_nil] at hspells
    exact ⟨_, hspells, rfl, rfl⟩
  · rintro ⟨x, ⟨hsign, hdigits, hexponent⟩, hfraction, hpower⟩
    rw [hpower] at hexponent
    rw [hfraction] at hdigits ⊢
    cases hexponent
    refine ⟨_, mem_sign.mpr ⟨_, hsign⟩, x.whole, mem_digits.mpr ⟨?_, hdigits.isDigit_whole⟩, ?_⟩
    · exact hdigits.nonempty.resolve_right (by simp)
    · rw [fractionText, List.append_nil, List.append_nil]

end NumberShape

section
variable {x : Numeral} {w : List Char}

/-! ### Numerals under the policies -/

/-- A text is spelled in one way. -/
theorem Numeral.Spells.unique {y : Numeral} (hx : Spells x w) (hy : Spells y w) : x = y :=
  (Prod.mk.inj (Option.some.inj (hx.read?.symm.trans hy.read?))).1

/-- A row of digits is an integer. -/
theorem Numeral.spells_digits (hne : w ≠ []) (hw : ∀ c ∈ w, isDigit c = true) :
    Spells ⟨false, w, none, none⟩ w := by
  have hspells : Spells ⟨false, w, none, none⟩ ([] ++ (w ++ (fractionText none ++ []))) :=
    .intro .none ⟨hw, by simp, .inl hne⟩ .none
  simpa [fractionText] using hspells

theorem trimBoth_of_spells (h : Spells x w) : trimBoth w = w := by
  have htrim : trimBoth ([] ++ (w ++ [])) = w :=
    trimBoth_append_blanks h.ne_nil (fun _ => h.isBlank_eq_false) (by simp) (by simp)
  simpa using htrim

/-- A run of digits is one with grouping marks that has none. -/
theorem NumberPolicy.spellsMarked_of_spells (h : Spells x w) : SpellsMarked x w := by
  obtain ⟨hsign, hdigits, hexponent⟩ := h
  refine .intro hsign ?_ (filter_isKept fun c hc => Or.inl (hdigits.isDigit_whole c hc)) hdigits
    hexponent
  by_cases hne : x.whole = []
  · exact Or.inl hne
  · have hcut : cutAt (· == '_') x.whole = [x.whole] := cutAt_of_forall_not fun c hc =>
      beq_eq_false_iff_ne.mpr (ne_of_isDigit (hdigits.isDigit_whole c hc) (by decide))
    refine Or.inr (Or.inr ?_)
    simpa [isUnderscored, hcut, hne] using hdigits.isDigit_whole

/-- The strict policy takes the complete numerals, and the looser ones take all. -/
theorem NumberPolicy.accepts_iff_of_spells (policy : NumberPolicy) (h : Spells x w) :
    policy.accepts w = true ↔ (policy ≠ .never ∧ x.fraction ≠ some []) ∨ policy = .enhanced ∨
      policy = .always := by
  have hstrict : isStrict w = true ↔ x.fraction ≠ some [] := by
    rw [isStrict_iff, trimBoth_of_spells h]
    exact ⟨fun ⟨y, hy, hcomplete⟩ => h.unique hy ▸ hcomplete, fun hcomplete => ⟨x, h, hcomplete⟩⟩
  cases policy with
  | never => simp [accepts]
  | strict => simpa [accepts] using hstrict
  | always => simp [accepts, leading?_of_spells (by rwa [trimBoth_of_spells h])]
  | enhanced =>
    have henhanced : isEnhanced w = true :=
      isEnhanced_iff.mpr ⟨x, by rw [trimBoth_of_spells h]; exact spellsMarked_of_spells h⟩
    simp [accepts, henhanced]

/-- Whatever policy takes it, it is the numeral that is read. -/
theorem NumberPolicy.numeral?_of_spells (policy : NumberPolicy) (h : Spells x w) :
    policy.numeral? w = if policy.accepts w then some x else none := by
  have htrim : Spells x (trimBoth w) := by rwa [trimBoth_of_spells h]
  have hwhole : wholeNumeral? w = some x :=
    wholeNumeral?_of_spells (by rwa [filter_isKept_of_spells htrim])
  unfold numeral?
  refine if_congr Iff.rfl ?_ rfl
  cases policy with
  | always => exact leading?_of_spells htrim
  | never | strict | enhanced => exact hwhole

/-- A row of digits is read under any policy, and has too many digits where the row is too
long. -/
theorem NumberPolicy.fits_read_digits {policy : NumberPolicy} (hpolicy : policy ≠ .never)
    (hne : w ≠ []) (hw : ∀ c ∈ w, isDigit c = true) (digits : Nat) :
    (Conversion.read policy (.text (String.ofList w))).fits digits =
      decide (w.length ≤ digits) := by
  have hspells := Numeral.spells_digits hne hw
  have haccepts := (policy.accepts_iff_of_spells hspells).mpr (.inl ⟨hpolicy, nofun⟩)
  rw [Conversion.fits, String.toList_ofList, policy.numeral?_of_spells hspells, if_pos haccepts]
  rfl

/-- Whatever policy takes it, it is converted to the number that it writes. -/
theorem NumberPolicy.convert?_of_spells (policy : NumberPolicy) (h : Spells x w) :
    policy.convert? w = if policy.accepts w then some x.value else none := by
  rw [convert?, policy.numeral?_of_spells h]
  cases policy.accepts w <;> rfl

theorem NumberPolicy.withNumbers_of_spells (policy : NumberPolicy) (h : Spells x w) :
    (Value.text (String.ofList w)).withNumbers policy =
      if policy.accepts w then .ofNumber x.value else .text (String.ofList w) := by
  rw [Value.withNumbers, String.toList_ofList, policy.convert?_of_spells h]
  cases policy.accepts w <;> rfl

/-! ### Values of numbers -/

theorem numberValue_eq (h : Spells x w) : numberValue w =
    if x.fraction = some [] then .text (String.ofList w) else .ofNumber x.value := by
  have haccepts : NumberPolicy.strict.accepts w = true ↔ x.fraction ≠ some [] := by
    simpa using NumberPolicy.accepts_iff_of_spells .strict h
  rw [numberValue, NumberPolicy.withNumbers_of_spells .strict h]
  by_cases hfraction : x.fraction = some []
  · rw [if_pos hfraction, if_neg fun haccepted => haccepts.mp haccepted hfraction]
  · rw [if_neg hfraction, if_pos (haccepts.mpr hfraction)]

theorem isNumber_ofNumber (n : Number) : (Value.ofNumber n).isNumber = true := by
  cases n <;> rfl

/-- **Numbers of a source.**  The value is a number exactly if there are digits on the right of
the point. -/
theorem numberValue_isNumber_iff (hw : w ∈ numeral) :
    (numberValue w).isNumber = true ↔ w ∈ completeNumeral := by
  obtain ⟨x, hx⟩ := mem_numeral.mp hw
  rw [numberValue_eq hx, mem_completeNumeral]
  by_cases hfraction : x.fraction = some []
  · rw [if_pos hfraction]
    refine iff_of_false (by simp [Value.isNumber]) ?_
    rintro ⟨y, hy, hcomplete⟩
    exact hcomplete (hx.unique hy ▸ hfraction)
  · rw [if_neg hfraction]
    exact iff_of_true (isNumber_ofNumber _) ⟨x, hx, hfraction⟩

/-- Otherwise it is the text of the numeral. -/
theorem numberValue_eq_text (hw : w ∈ numeral) (hnot : w ∉ completeNumeral) :
    numberValue w = .text (String.ofList w) := by
  obtain ⟨x, hx⟩ := mem_numeral.mp hw
  rw [numberValue_eq hx, if_pos]
  by_contra hfraction
  exact hnot (mem_completeNumeral.mpr ⟨x, hx, hfraction⟩)

/-- The integers are the runs of digits. -/
theorem exists_int_iff (hw : w ∈ numeral) : (∃ n, numberValue w = .int n) ↔ w ∈ integer := by
  obtain ⟨x, hx⟩ := mem_numeral.mp hw
  have hinteger : w ∈ integer ↔ x.fraction = none ∧ x.exponent = none := by
    rw [mem_integer]
    exact ⟨fun ⟨y, hy, h⟩ => hx.unique hy ▸ h, fun h => ⟨x, hx, h⟩⟩
  rw [numberValue_eq hx, hinteger, Numeral.value, Numeral.isInteger, Numeral.fractionDigits]
  rcases hfraction : x.fraction with _ | _ | ⟨d, ds⟩ <;> cases x.exponent <;>
    simp [Value.ofNumber]

/-- Under another policy the text of a numeral may still become a number. -/
theorem isNumber_withNumbers_iff (policy : NumberPolicy) (hw : w ∈ numeral) :
    ((numberValue w).withNumbers policy).isNumber = true ↔
      w ∈ completeNumeral ∨ policy = .enhanced ∨ policy = .always := by
  obtain ⟨x, hx⟩ := mem_numeral.mp hw
  by_cases hcomplete : w ∈ completeNumeral
  · have hnumber := (numberValue_isNumber_iff hw).mpr hcomplete
    refine iff_of_true ?_ (Or.inl hcomplete)
    generalize numberValue w = v at hnumber
    cases v with
    | int n => rfl
    | float y => rfl
    | _ => cases hnumber
  · have hfraction : x.fraction = some [] := by
      by_contra hne
      exact hcomplete (mem_completeNumeral.mpr ⟨x, hx, hne⟩)
    have haccepts := policy.accepts_iff_of_spells hx
    rw [numberValue_eq_text hw hcomplete, policy.withNumbers_of_spells hx]
    simp only [hcomplete, hfraction, ne_eq, not_true_eq_false, and_false, false_or] at haccepts ⊢
    rw [← haccepts]
    split
    · simp [*, isNumber_ofNumber]
    · simp [*, Value.isNumber]

end
end RuleTree
