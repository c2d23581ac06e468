import RuleTree.Source.Reading
import RuleTree.Proofs.Quoting

/-! # Integers that read back

An integer is written in decimal with a minus where it is negative.  The longest
numeral at the start of that text is all of it, unless digits, a point or an
exponent follow (`Numeral.read?_intText`), and its value is the integer again
(`Source.numberValue_intText`).
-/
namespace RuleTree
open Text

/-! ### ASCII digits among the digits of all scripts -/

theorem Text.digitValue?_of_isDigit {c : Char} (h : c.isDigit = true) :
    digitValue? c = some (c.toNat - 48) := by
  have hc : 48 ≤ c.toNat ∧ c.toNat < 58 := by
    simp only [Char.isDigit, Bool.and_eq_true, decide_eq_true_eq, ge_iff_le,
      UInt32.le_iff_toNat_le] at h
    exact ⟨h.1, Nat.lt_succ_of_le h.2⟩
  simp [digitValue?, digitZeros, hc.1, hc.2]

theorem Text.isDigit_of_isDigit {c : Char} (h : c.isDigit = true) : isDigit c = true := by
  rw [isDigit, digitValue?_of_isDigit h, Option.isSome_some]

theorem Text.digitsValue_eq_ofDigitChars {cs : List Char} (h : ∀ c ∈ cs, c.isDigit = true) :
    digitsValue cs = Nat.ofDigitChars 10 cs 0 := by
  suffices hfold : ∀ n, cs.foldl (fun n c => 10 * n + (digitValue? c).getD 0) n =
      Nat.ofDigitChars 10 cs n from hfold 0
  induction cs with
  | nil => intro n; simp
  | cons c cs ih =>
    intro n
    rw [List.foldl_cons, ih (fun d hd => h d (List.mem_cons_of_mem _ hd)),
      digitValue?_of_isDigit (h c List.mem_cons_self), Nat.ofDigitChars_cons]
    rfl

namespace Value

/-- The digits of the absolute value of an integer. -/
def intDigits (n : Int) : List Char := Nat.toDigits 10 n.natAbs

theorem isDigit_of_mem_intDigits {n : Int} {c : Char} (h : c ∈ intDigits n) :
    c.isDigit = true := Nat.isDigit_of_mem_toDigits (by decide) (by decide) h

theorem intDigits_ne_nil (n : Int) : intDigits n ≠ [] := Nat.toDigits_ne_nil

theorem toList_intText (n : Int) :
    (intText n).toList = if n < 0 then '-' :: intDigits n else intDigits n := by
  unfold intText natText intDigits
  split <;> simp

theorem digitsValue_intDigits (n : Int) : digitsValue (intDigits n) = n.natAbs := by
  rw [digitsValue_eq_ofDigitChars fun _ => isDigit_of_mem_intDigits]
  exact Nat.ofDigitChars_ten_toDigits

/-- The text of an integer is made of digits and a sign. -/
theorem eq_or_isDigit_of_mem_intText {n : Int} {c : Char} (h : c ∈ (intText n).toList) :
    c = '-' ∨ c.isDigit = true := by
  rw [toList_intText] at h
  split at h
  · exact (List.mem_cons.mp h).imp id isDigit_of_mem_intDigits
  · exact Or.inr (isDigit_of_mem_intDigits h)

/-- The characters of integers. -/
def numeric : List Char := ['-', '0', '1', '2', '3', '4', '5', '6', '7', '8', '9']

theorem mem_numeric_of_mem_intText {n : Int} {c : Char} (h : c ∈ (intText n).toList) :
    c ∈ numeric := by
  rcases eq_or_isDigit_of_mem_intText h with rfl | hc
  · decide
  · have hnat : 48 ≤ c.toNat ∧ c.toNat < 48 + 10 := by
      simp only [Char.isDigit, Bool.and_eq_true, decide_eq_true_eq, ge_iff_le,
        UInt32.le_iff_toNat_le] at hc
      exact ⟨hc.1, Nat.lt_succ_of_le hc.2⟩
    have hdigits : numeric = '-' :: (List.range' 48 10).map Char.ofNat := by decide
    rw [hdigits]
    exact List.mem_cons_of_mem _
      (List.mem_map.mpr ⟨c.toNat, List.mem_range'_1.mpr hnat, Char.ofNat_toNat c⟩)

theorem intText_ne_nil (n : Int) : (intText n).toList ≠ [] := by
  rw [toList_intText]
  split
  · simp
  · exact intDigits_ne_nil n

end Value

namespace Numeral
open Value

/-- The numeral of an integer. -/
def ofInt (n : Int) : Numeral := ⟨decide (n < 0), intDigits n, none, none⟩

theorem value_ofInt (n : Int) : (ofInt n).value = .int n := by
  have hn : (if decide (n < 0) then -(n.natAbs : Int) else n.natAbs) = n := by
    simp only [decide_eq_true_eq]
    split <;> omega
  simp only [value, ofInt, fractionDigits, digitsValue_intDigits]
  rw [hn]
  rfl

/-- What may follow a numeral that is read to its end. -/
def EndsHere (rest : List Char) : Prop :=
  ∀ c ∈ rest.head?, Text.isDigit c = false ∧ c ≠ '.' ∧ c ≠ 'e' ∧ c ≠ 'E'

theorem readSign_intText (n : Int) (rest : List Char) :
    readSign ((intText n).toList ++ rest) = (decide (n < 0), intDigits n ++ rest) := by
  rw [toList_intText]
  split
  · simp [readSign, *]
  · obtain ⟨c, cs, hc⟩ := List.exists_cons_of_ne_nil (intDigits_ne_nil n)
    have hd : c.isDigit = true := isDigit_of_mem_intDigits (hc ▸ List.mem_cons_self)
    have hplus : c ≠ '+' := fun he => by rw [he] at hd; exact absurd hd (by decide)
    have hminus : c ≠ '-' := fun he => by rw [he] at hd; exact absurd hd (by decide)
    rw [hc, List.cons_append, readSign]
    · simp [*]
    · exact fun _ he => hplus (List.cons.inj he).1
    · exact fun _ he => hminus (List.cons.inj he).1

theorem readDigits?_intDigits (n : Int) {rest : List Char} (h : EndsHere rest) :
    readDigits? (intDigits n ++ rest) = some ((intDigits n, none), rest) := by
  have hall : ∀ c ∈ intDigits n, Text.isDigit c = true :=
    fun c hc => isDigit_of_isDigit (isDigit_of_mem_intDigits hc)
  have htake : rest.takeWhile Text.isDigit = [] := by
    cases rest with
    | nil => rfl
    | cons c rest => simp [(h c (by simp)).1]
  have hdrop : rest.dropWhile Text.isDigit = rest := by
    cases rest with
    | nil => rfl
    | cons c rest => simp [(h c (by simp)).1]
  rw [readDigits?, List.takeWhile_append_of_pos hall, List.dropWhile_append_of_pos hall,
    htake, hdrop, List.append_nil]
  split
  -- a point behind the digits would make them a fraction
  · rename_i after _
    exact absurd rfl (h '.' (by simp)).2.1
  · simp [intDigits_ne_nil]

theorem readExponent_of_endsHere {rest : List Char} (h : EndsHere rest) :
    readExponent rest = (none, rest) := by
  cases rest with
  | nil => rfl
  | cons c rest =>
    obtain ⟨-, -, he, hE⟩ := h c (by simp)
    simp [readExponent, he, hE]

/-- The numeral at the start is the whole text of the integer. -/
theorem read?_intText (n : Int) {rest : List Char} (h : EndsHere rest) :
    read? ((intText n).toList ++ rest) = some (ofInt n, rest) := by
  simp [read?, readSign_intText, readDigits?_intDigits n h, readExponent_of_endsHere h, ofInt]

theorem read?_intText_self (n : Int) : read? (intText n).toList = some (ofInt n, []) := by
  have hread := read?_intText n (show EndsHere [] by simp [EndsHere])
  simpa using hread

end Numeral

namespace Value

theorem isBlank_of_mem_intText {n : Int} {c : Char} (h : c ∈ (intText n).toList) :
    isBlank c = false := by
  rcases eq_or_isDigit_of_mem_intText h with rfl | hc
  · decide
  · simp only [Char.isDigit, Bool.and_eq_true, decide_eq_true_eq, ge_iff_le,
      UInt32.le_iff_toNat_le] at hc
    have h1 : 48 ≤ c.toNat := hc.1
    have h2 : c.toNat ≤ 57 := hc.2
    simp only [isBlank, Bool.or_eq_false_iff, Bool.and_eq_false_iff, decide_eq_false_iff_not,
      beq_eq_false_iff_ne]
    omega

theorem trimBoth_intText (n : Int) : trimBoth (intText n).toList = (intText n).toList :=
  trimBoth_eq_self (fun _ hc => isBlank_of_mem_intText (List.mem_of_mem_head? hc))
    fun _ hc => isBlank_of_mem_intText (List.mem_of_mem_getLast? hc)

end Value

/-- A number token that is the text of an integer has the integer as its value. -/
theorem Source.numberValue_intText (n : Int) :
    numberValue (Value.intText n).toList = .int n := by
  have hfilter : (Value.intText n).toList.filter (fun c => c != '_' && c != ',') =
      (Value.intText n).toList := by
    refine List.filter_eq_self.mpr fun c hc => ?_
    rcases Value.eq_or_isDigit_of_mem_intText hc with rfl | hd
    · decide
    · have h1 : c ≠ '_' := fun he => by rw [he] at hd; exact absurd hd (by decide)
      have h2 : c ≠ ',' := fun he => by rw [he] at hd; exact absurd hd (by decide)
      simp [h1, h2]
  have hstrict : NumberPolicy.accepts .strict (Value.intText n).toList = true := by
    simp [NumberPolicy.accepts, NumberPolicy.isStrict, Value.trimBoth_intText,
      Numeral.read?_intText_self, Numeral.isComplete, Numeral.ofInt]
  have hwhole : NumberPolicy.wholeNumeral? (Value.intText n).toList = some (.ofInt n) := by
    rw [NumberPolicy.wholeNumeral?, Value.trimBoth_intText, hfilter, Numeral.read?_intText_self]
  simp [numberValue, Value.withNumbers, NumberPolicy.convert?, NumberPolicy.numeral?, hstrict,
    hwhole, Numeral.value_ofInt, Value.ofNumber]

end RuleTree
