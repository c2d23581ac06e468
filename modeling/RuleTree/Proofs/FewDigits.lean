import RuleTree.Clause.Tree
import RuleTree.Mongo.Pattern
import RuleTree.Sql.Literal
import RuleTree.Text.Quoted
import RuleTree.Proofs.NumberTokens
import RuleTree.Proofs.NumberValues

/-! # Values of few digits

A value is brief if none of its integers and none of its texts has more than so many digits
(`Value.isBrief`).  What readers make of brief literals may be read and written under a limit
of as many digits (`Value.Fits`): no text has a numeral of more digits than it has itself, none
gets digits by losing its quotes or its escapes, and the text of a floating point number is
never an integer.
-/
namespace RuleTree
open Text Numeral

/-! ### Digits in a text -/

/-- How many digits there are in a text. -/
def Text.digitCount (cs : List Char) : Nat := cs.countP isDigit

section
variable {cs ds : List Char} {x : Numeral} {digits : Nat}

theorem Text.digitCount_le (h : cs.Sublist ds) : digitCount cs ≤ digitCount ds := h.countP_le

theorem Text.trimBoth_sublist (cs : List Char) : (trimBoth cs).Sublist cs := by
  have hend : (trimEnd (trimStart cs)).reverse.Sublist (trimStart cs).reverse := by
    rw [trimEnd, List.reverse_reverse]
    exact List.dropWhile_sublist _
  exact (List.reverse_sublist.mp hend).trans (List.dropWhile_sublist _)

/-- The digits of a numeral are among those of the text that starts with it. -/
theorem Numeral.length_whole_le {rest : List Char} (h : Numeral.read? cs = some (x, rest)) :
    x.whole.length ≤ digitCount cs := by
  obtain ⟨lead, rfl, ⟨-, hdigits, -⟩⟩ := exists_spells_of_read? h
  have hcount : digitCount x.whole = x.whole.length :=
    List.countP_eq_length.mpr hdigits.isDigit_whole
  simp only [digitCount, List.countP_append] at hcount ⊢
  omega

/-- An integer has digits. -/
theorem Numeral.whole_ne_nil {rest : List Char} (h : Numeral.read? cs = some (x, rest))
    (hinteger : x.isInteger = true) : x.whole ≠ [] := by
  obtain ⟨lead, rfl, ⟨-, hdigits, -⟩⟩ := exists_spells_of_read? h
  simp only [isInteger, fractionDigits, Bool.and_eq_true, List.isEmpty_iff] at hinteger
  exact hdigits.nonempty.resolve_right fun hfraction => hfraction hinteger.1

/-- The numeral that a policy finds starts a part of the text. -/
theorem NumberPolicy.exists_read? {policy : NumberPolicy} (h : policy.numeral? cs = some x) :
    ∃ ds rest, ds.Sublist cs ∧ Numeral.read? ds = some (x, rest) := by
  have hwhole (hw : wholeNumeral? cs = some x) :
      ∃ ds rest, ds.Sublist cs ∧ Numeral.read? ds = some (x, rest) := by
    unfold wholeNumeral? at hw
    split at hw
    · rename_i y hread
      obtain rfl := Option.some.inj hw
      exact ⟨_, [], List.filter_sublist.trans (trimBoth_sublist cs), hread⟩
    · cases hw
  unfold numeral? at h
  split at h
  case isFalse => cases h
  case isTrue =>
    cases policy with
    | always =>
      obtain ⟨⟨y, rest⟩, hread, rfl⟩ := Option.map_eq_some_iff.mp h
      exact ⟨_, rest, List.dropWhile_sublist _, hread⟩
    | never | strict | enhanced => exact hwhole h

theorem NumberPolicy.length_whole_le {policy : NumberPolicy} (h : policy.numeral? cs = some x) :
    x.whole.length ≤ digitCount cs := by
  obtain ⟨ds, rest, hsublist, hread⟩ := exists_read? h
  exact (Numeral.length_whole_le hread).trans (digitCount_le hsublist)

/-- What a row of digits writes is below the power of ten with as many zeros. -/
theorem Text.digitsValue_lt (cs : List Char) : digitsValue cs < 10 ^ cs.length := by
  have hdigit (c : Char) : (digitValue? c).getD 0 < 10 := by
    unfold digitValue?
    cases hzero : digitZeros.find? fun z => z ≤ c.toNat && c.toNat < z + 10 with
    | none => simp
    | some z =>
      have hz := List.find?_some hzero
      simp only [Bool.and_eq_true, decide_eq_true_eq] at hz
      simp only [Option.map_some, Option.getD_some]
      omega
  induction cs using List.reverseRecOn with
  | nil => simp [digitsValue]
  | append_singleton cs c ih =>
    have hstep : digitsValue (cs ++ [c]) = 10 * digitsValue cs + (digitValue? c).getD 0 := by
      simp [digitsValue]
    have hlast := hdigit c
    rw [hstep, List.length_append, List.length_singleton, Nat.pow_succ]
    omega

/-- A numeral without a fraction and an exponent is an integer with its digits. -/
theorem Numeral.exists_int_or_float (x : Numeral) :
    (x.isInteger = true ∧ ∃ n : Int, x.value = .int n ∧ n.natAbs = digitsValue x.whole) ∨
      x.isInteger = false ∧ ∃ y, x.value = .float y := by
  unfold value
  cases hinteger : x.isInteger with
  | true =>
    refine .inl ⟨rfl, _, rfl, ?_⟩
    cases x.negative <;> simp
  | false => exact .inr ⟨rfl, _, rfl⟩

end

/-! ### Texts that are made of others -/

section
variable (cs : List Char)

/-- A text loses no more than percent signs where it is a pattern of `like`. -/
theorem Sql.digitCount_readLikePattern_le : digitCount (readLikePattern cs).2 ≤ digitCount cs := by
  unfold readLikePattern
  dsimp only
  split
  · exact digitCount_le ((List.dropLast_sublist _).trans (List.tail_sublist _))
  split
  · exact digitCount_le (List.dropLast_sublist _)
  split
  · exact digitCount_le (List.tail_sublist _)
  · exact Nat.le_refl _

theorem Pattern.unescape_sublist : (unescape cs).Sublist cs := by
  fun_induction unescape cs with
  | case1 => exact List.Sublist.refl _
  | case2 => exact List.Sublist.refl _
  | case3 cs ih => exact (ih.cons_cons _).cons_cons _
  | case4 c cs hc ih => exact (ih.cons_cons _).cons _
  | case5 c cs _ _ ih => exact ih.cons_cons _

/-- A pattern loses its anchors and the backslashes of its escapes. -/
theorem Pattern.digitCount_read?_le {operator : Operator} {text : List Char}
    (h : read? cs = some (operator, text)) : digitCount text ≤ digitCount cs := by
  unfold read? at h
  dsimp only at h
  generalize hbody : (if endsAnchored cs = true then
    (if (cs.head? == some '^') = true then cs.tail else cs).dropLast
    else if (cs.head? == some '^') = true then cs.tail else cs) = body at h
  have hsublist : body.Sublist cs := by
    have hstart : (if (cs.head? == some '^') = true then cs.tail else cs).Sublist cs := by
      split
      · exact List.tail_sublist _
      · exact List.Sublist.refl _
    rw [← hbody]
    split
    · exact (List.dropLast_sublist _).trans hstart
    · exact hstart
  split at h
  · cases h
  · have htext : text = unescape body := by
      have hpair := Option.some.inj h
      split at hpair <;> exact (Prod.mk.inj hpair).2.symm
    rw [htext]
    exact digitCount_le ((unescape_sublist body).trans hsublist)

/-- Doubled quotes become single ones. -/
theorem Text.digitCount_replaceAll_le {quote : Char} :
    digitCount (replaceAll [quote, quote] [quote] cs) ≤ digitCount cs := by
  have hfrom (skip : Nat) (cs : List Char) :
      digitCount (replaceFrom [quote, quote] [quote] skip cs) ≤ digitCount cs := by
    induction cs generalizing skip with
    | nil => cases skip <;> exact Nat.le_refl _
    | cons c cs ih =>
      cases skip with
      | succ skip => exact (ih skip).trans (digitCount_le (List.sublist_cons_self c cs))
      | zero =>
        rw [replaceFrom]
        split
        · rename_i hdoubled
          obtain rfl : quote = c := by
            simpa using (List.cons_prefix_cons.mp (List.isPrefixOf_iff_prefix.mp hdoubled)).1
          have hrest := ih ([quote, quote].length - 1)
          simp only [digitCount, List.countP_append, List.countP_cons, List.countP_nil] at hrest ⊢
          omega
        · have hrest := ih 0
          simp only [digitCount, List.countP_cons] at hrest ⊢
          omega
  exact hfrom 0 cs

/-- An escaped character is a digit only if it is one by itself. -/
theorem Text.digitCount_unescaped_le : digitCount (unescaped cs) ≤ digitCount cs := by
  have hmeaning (c : Char) : isDigit (escapedMeaning c) = true → isDigit c = true := by
    unfold escapedMeaning
    split
    · exact fun h => absurd h (by decide)
    split
    · exact fun h => absurd h (by decide)
    split
    · exact fun h => absurd h (by decide)
    · exact id
  fun_induction unescaped cs with
  | case1 => exact Nat.le_refl _
  | case2 => exact Nat.le_refl _
  | case3 cs ih =>
    simp only [digitCount, List.countP_cons] at ih ⊢
    omega
  | case4 c cs hc ih =>
    have hc := hmeaning c
    simp only [digitCount, List.countP_cons] at ih ⊢
    split
    · rw [if_pos (hc ‹_›)]
      omega
    · omega
  | case5 c cs _ _ ih =>
    simp only [digitCount, List.countP_cons] at ih ⊢
    omega

end

/-! ### Reading texts -/

section
variable {digits : Nat} (policy : NumberPolicy)

/-- A text of few digits may be read. -/
theorem Conversion.fits_read_text {s : String} (h : digitCount s.toList ≤ digits) :
    (Conversion.read policy (.text s)).fits digits = true := by
  rw [fits, Option.all_eq_true]
  intro x hx
  have hlength := (NumberPolicy.length_whole_le hx).trans h
  simp [Numeral.isShort, hlength]

/-- A row of ones is read under any policy, but not where it is longer than the limit. -/
theorem Conversion.fits_read_ones (hpolicy : policy ≠ .never) {most : Nat} (h : most < digits) :
    (Conversion.read policy (.text (String.ofList (List.replicate digits '1')))).fits most =
      false := by
  rw [NumberPolicy.fits_read_digits hpolicy (by simpa using Nat.ne_zero_of_lt h)
    (fun c hc => by rw [List.eq_of_mem_replicate hc]; rfl)]
  simpa using h

/-- The text of a floating point number is not the one of an integer. -/
theorem Conversion.fits_read_float (x : Binary64) :
    (Conversion.read policy (.text x.text)).fits digits = true := by
  have hletters (h : digitCount x.text.toList = 0) :
      (Conversion.read policy (.text x.text)).fits digits = true :=
    fits_read_text policy (by omega)
  cases x with
  | nan => exact hletters (by decide)
  | infinite negative => exact hletters (by cases negative <;> decide)
  | finite negative mantissa exponent =>
    obtain ⟨x, hx, hinteger⟩ := Binary64.exists_spells_text negative mantissa exponent
    rw [fits, policy.numeral?_of_spells hx]
    split
    · simp [Numeral.isShort, hinteger]
    · rfl

end

/-! ### Brief values -/

namespace Value
variable {digits : Nat} {v : Value}

mutual
/-- Whether no integer and no text in a value has more than so many digits. -/
def isBrief (digits : Nat) : Value → Bool
  | .int n => (intDigits n).length ≤ digits
  | .text s => digitCount s.toList ≤ digits
  | .list items => areBrief digits items
  | .map entries => entriesAreBrief digits entries
  | _ => true

/-- Whether all values of a list are brief. -/
def areBrief (digits : Nat) : List Value → Bool
  | [] => true
  | v :: rest => isBrief digits v && areBrief digits rest

/-- Whether the values of all entries are brief. -/
def entriesAreBrief (digits : Nat) : List (String × Value) → Bool
  | [] => true
  | (_, v) :: rest => isBrief digits v && entriesAreBrief digits rest
end

theorem areBrief_iff {items : List Value} :
    areBrief digits items = true ↔ ∀ v ∈ items, v.isBrief digits = true := by
  induction items with
  | nil => simp [areBrief]
  | cons v items ih => simp [areBrief, ih]

theorem entriesAreBrief_iff {entries : List (String × Value)} :
    entriesAreBrief digits entries = true ↔ ∀ e ∈ entries, e.2.isBrief digits = true := by
  induction entries with
  | nil => simp [entriesAreBrief]
  | cons e entries ih => simp [entriesAreBrief, ih]

theorem areShort_iff {items : List Value} :
    areShort digits items = true ↔ ∀ v ∈ items, v.isShort digits = true := by
  induction items with
  | nil => simp [areShort]
  | cons v items ih => simp [areShort, ih]

mutual
/-- The integers of a brief value may be written. -/
theorem isShort_of_isBrief : ∀ v : Value, v.isBrief digits = true → v.isShort digits = true
  | .int n, h => by
    have hlength : (intDigits n).length ≤ digits := by simpa [isBrief] using h
    have hpositive : 0 < digits := (Nat.length_toDigits_pos).trans_le hlength
    simpa [isShort] using (Nat.length_toDigits_le_iff (by decide) hpositive).mp hlength
  | .list items, h => by
    rw [isBrief] at h
    rw [isShort]
    exact areShort_of_areBrief items h
  | .map entries, h => by
    rw [isBrief] at h
    rw [isShort]
    exact entriesAreShort_of_entriesAreBrief entries h
  | .null, _ | .bool _, _ | .float _, _ | .text _, _ => rfl

theorem areShort_of_areBrief :
    ∀ items : List Value, areBrief digits items = true → areShort digits items = true
  | [], _ => rfl
  | v :: rest, h => by
    rw [areBrief, Bool.and_eq_true] at h
    rw [areShort, isShort_of_isBrief v h.1, areShort_of_areBrief rest h.2]
    rfl

theorem entriesAreShort_of_entriesAreBrief : ∀ entries : List (String × Value),
    entriesAreBrief digits entries = true → entriesAreShort digits entries = true
  | [], _ => rfl
  | (_, v) :: rest, h => by
    rw [entriesAreBrief, Bool.and_eq_true] at h
    rw [entriesAreShort, isShort_of_isBrief v h.1, entriesAreShort_of_entriesAreBrief rest h.2]
    rfl
end

/-! ### Values of rules -/

/-- What is read one by one in the value of a rule: the items of a list, or else the value. -/
def parts : Value → List Value
  | .list items => items
  | v => [v]

/-- A value that a rule may have within so many digits, whatever the number policy: its integers
may be written, and its texts may be read. -/
structure Fits (digits : Nat) (v : Value) : Prop where
  isShort : v.isShort digits = true
  reads : ∀ w ∈ v.parts, ∀ policy, (Conversion.read policy w).fits digits = true

theorem Fits.read (h : v.Fits digits) (policy : NumberPolicy) :
    (Conversion.read policy v).fits digits = true := by
  cases v with
  | list => rfl
  | _ => exact h.reads _ (List.mem_singleton_self _) policy

theorem fits_text {s : String} (h : digitCount s.toList ≤ digits) : (Value.text s).Fits digits :=
  ⟨rfl, List.forall_mem_singleton.mpr fun policy => Conversion.fits_read_text policy h⟩

theorem fits_list {items : List Value} (h : ∀ v ∈ items, v.Fits digits) :
    (Value.list items).Fits digits :=
  ⟨by rw [Value.isShort, areShort_iff]; exact fun v hv => (h v hv).isShort,
    fun v hv => (h v hv).read⟩

/-- The literals of a source are such values. -/
theorem fits_of_isBrief (h : v.isBrief digits = true) : v.Fits digits := by
  have hread (w : Value) (hw : w.isBrief digits = true) (policy : NumberPolicy) :
      (Conversion.read policy w).fits digits = true := by
    cases w with
    | text s => exact Conversion.fits_read_text policy (by simpa [isBrief] using hw)
    | _ => rfl
  refine ⟨isShort_of_isBrief v h, fun w hw => ?_⟩
  cases v with
  | list items =>
    rw [isBrief, areBrief_iff] at h
    exact hread w (h w hw)
  | _ =>
    obtain rfl := List.mem_singleton.mp hw
    exact hread _ h

/-- A value that is read as a number may be written then. -/
theorem isShort_withNumbers {policy : NumberPolicy} (hshort : v.isShort digits = true)
    (hread : (Conversion.read policy v).fits digits = true) :
    (v.withNumbers policy).isShort digits = true := by
  cases v with
  | text s =>
    rw [withNumbers, NumberPolicy.convert?]
    rw [Conversion.fits, Option.all_eq_true] at hread
    cases hnumeral : policy.numeral? s.toList with
    | none => rfl
    | some x =>
      rcases x.exists_int_or_float with ⟨hinteger, n, hvalue, hn⟩ | ⟨-, y, hvalue⟩
      · have hlength : x.whole.length ≤ digits := by
          simpa [Numeral.isShort, hinteger] using hread x hnumeral
        have hpower := Nat.pow_le_pow_right (show 0 < 10 by decide) hlength
        rw [Option.map_some, hvalue]
        simpa [ofNumber, isShort, hn] using (digitsValue_lt x.whole).trans_le hpower
      · rw [Option.map_some, hvalue]
        rfl
  | _ => exact hshort

end Value

/-! ### Literals of text sources -/

namespace Source

/-- Whether a number or a text has at most so many digits where it is spelled. -/
def Leaf.isBrief (digits : Nat) : Leaf → Bool
  | .number spelling => digitCount spelling ≤ digits
  | .text spelling => digitCount spelling ≤ digits
  | _ => true

section
variable {digits : Nat} {spelling : List Char}

theorem isBrief_numberValue (h : digitCount spelling ≤ digits) :
    (numberValue spelling).isBrief digits = true := by
  rw [numberValue, Value.withNumbers, NumberPolicy.convert?, String.toList_ofList]
  cases hnumeral : NumberPolicy.numeral? .strict spelling with
  | none => simpa [Value.isBrief] using h
  | some x =>
    rcases x.exists_int_or_float with ⟨hinteger, n, hvalue, hn⟩ | ⟨-, y, hvalue⟩
    · have hlength := (NumberPolicy.length_whole_le hnumeral).trans h
      obtain ⟨ds, rest, -, hread⟩ := NumberPolicy.exists_read? hnumeral
      have hpositive :=
        (List.length_pos_iff.mpr (Numeral.whole_ne_nil hread hinteger)).trans_le hlength
      have hpower := Nat.pow_le_pow_right (show 0 < 10 by decide) hlength
      have hshort := (digitsValue_lt x.whole).trans_le hpower
      rw [← hn] at hshort
      rw [Option.map_some, hvalue]
      exact decide_eq_true ((Nat.length_toDigits_le_iff (by decide) hpositive).mpr hshort)
    · rw [Option.map_some, hvalue]
      rfl

/-- A leaf of few digits may be read. -/
theorem Leaf.fits_conversions {v : Leaf} (h : v.isBrief digits = true) :
    ∀ c ∈ v.conversions, c.fits digits = true := by
  cases v with
  | number spelling =>
    refine List.forall_mem_singleton.mpr (Conversion.fits_read_text .strict ?_)
    simpa [isBrief] using h
  | _ => simp [conversions]

/-- The literal of a leaf is one value. -/
theorem Leaf.ne_of_operand {name : FieldName → String} {text : List Char → List Char}
    {leaf : Leaf} {v : Value} (hv : leaf.operand name text = .literal v) :
    (∀ items, v ≠ .list items) ∧ ∀ entries, v ≠ .map entries := by
  cases leaf with
  | number spelling =>
    obtain rfl := Operand.literal.inj hv
    rw [numberValue, Value.withNumbers, String.toList_ofList]
    cases NumberPolicy.convert? .strict spelling with
    | none => simp
    | some n => cases n <;> simp [Value.ofNumber]
  | field => cases hv
  | text | truth | null =>
    obtain rfl := Operand.literal.inj hv
    simp

/-- The literal of a leaf is brief as the leaf is. -/
theorem Leaf.isBrief_of_operand {name : FieldName → String} {text : List Char → List Char}
    (htext : ∀ spelling, digitCount (text spelling) ≤ digitCount spelling) {leaf : Leaf}
    (h : leaf.isBrief digits = true) {v : Value} (hv : leaf.operand name text = .literal v) :
    v.isBrief digits = true := by
  cases leaf with
  | field f => cases hv
  | text spelling =>
    obtain rfl := Operand.literal.inj hv
    have hspelling : digitCount spelling ≤ digits := by simpa [isBrief] using h
    simpa [Value.isBrief] using (htext spelling).trans hspelling
  | number spelling =>
    obtain rfl := Operand.literal.inj hv
    exact isBrief_numberValue (by simpa [isBrief] using h)
  | truth b =>
    obtain rfl := Operand.literal.inj hv
    rfl
  | null =>
    obtain rfl := Operand.literal.inj hv
    rfl

end
end Source

/-! ### Patterns -/

namespace Sql
variable {digits : Nat}

/-- A pattern of `like` has no more digits than it is written with. -/
theorem fits_readLikePattern {s : String} (h : digitCount s.toList ≤ digits) :
    (Value.text (String.ofList (readLikePattern s.toList).2)).Fits digits := by
  refine Value.fits_text ?_
  rw [String.toList_ofList]
  exact (digitCount_readLikePattern_le _).trans h

/-- The text of a floating point number is a pattern of itself. -/
theorem fits_readLikePattern_float (x : Binary64) :
    (Value.text (String.ofList (readLikePattern x.text.toList).2)).Fits digits := by
  have hself (h : (readLikePattern x.text.toList).2 = x.text.toList) :
      (Value.text (String.ofList (readLikePattern x.text.toList).2)).Fits digits := by
    rw [h, String.ofList_toList]
    exact ⟨rfl, List.forall_mem_singleton.mpr fun policy => Conversion.fits_read_float policy x⟩
  cases x with
  | nan => exact hself (by decide)
  | infinite negative => exact hself (by cases negative <;> decide)
  | finite negative mantissa exponent =>
    obtain ⟨x, hx, -⟩ := Binary64.exists_spells_text negative mantissa exponent
    have hpercent : '%' ∉ (Binary64.finite negative mantissa exponent).text.toList := fun hmem =>
      (hx.isDigit_or_mem hmem).elim (fun hdigit => absurd hdigit (by decide))
        fun hmark => absurd hmark (by decide)
    have hstarts : ((Binary64.finite negative mantissa exponent).text.toList.head? == some '%') =
        false := beq_eq_false_iff_ne.mpr fun he => hpercent (List.mem_of_head? he)
    have hends : ((Binary64.finite negative mantissa exponent).text.toList.getLast? == some '%') =
        false := beq_eq_false_iff_ne.mpr fun he => hpercent (List.mem_of_getLast? he)
    refine hself ?_
    unfold readLikePattern
    simp only [hstarts, hends, Bool.false_and, Bool.false_eq_true, if_false]

/-- So a literal that is no list and no map may be a pattern. -/
theorem fits_readLikePattern_display {v : Value} (h : v.isBrief digits = true)
    (hlist : ∀ items, v ≠ .list items) (hmap : ∀ entries, v ≠ .map entries) :
    (Value.text (String.ofList (readLikePattern v.display.toList).2)).Fits digits := by
  cases v with
  | null => exact fits_readLikePattern (Nat.zero_le digits)
  | bool b =>
    have hletters : digitCount (Value.bool b).display.toList = 0 := by cases b <;> decide
    exact fits_readLikePattern (hletters ▸ Nat.zero_le digits)
  | text s => exact fits_readLikePattern (by simpa [Value.isBrief] using h)
  | float x => exact fits_readLikePattern_float x
  | int n =>
    rw [Value.display_int]
    have hlength : (Value.intDigits n).length ≤ digits := by simpa [Value.isBrief] using h
    refine fits_readLikePattern (Nat.le_trans ?_ hlength)
    rw [Value.toList_intText]
    have hcount : digitCount (Value.intDigits n) ≤ (Value.intDigits n).length :=
      List.countP_le_length
    have hminus : isDigit '-' = false := by decide
    split
    · simpa [digitCount, hminus] using hcount
    · exact hcount
  | list items => exact absurd rfl (hlist items)
  | map entries => exact absurd rfl (hmap entries)

end Sql

/-! ### Rules that are finished -/

namespace Clause
variable {digits : Nat} {r : Rule}

theorem comparesFields_of_readsNumbers (h : readsNumbers r = true) : r.comparesFields = false := by
  unfold readsNumbers at h
  simpa using (Bool.and_eq_true_iff.mp h).1

/-- A rule whose value may be written, and read where it is no other field, may be finished. -/
theorem fits_finishing (plan : ParsePlan) (hshort : r.value.isShort digits = true)
    (h : r.comparesFields = false → r.value.Fits digits) :
    ∀ c ∈ finishing plan r, c.fits digits = true := by
  have hread (v : Value)
      (hv : r.comparesFields = false → (Conversion.read plan.policy v).fits digits = true) :
      ∀ c ∈ (if readsNumbers r then [Conversion.read plan.policy v] else []),
        c.fits digits = true := by
    split
    · rename_i hreads
      exact List.forall_mem_singleton.mpr (hv (comparesFields_of_readsNumbers hreads))
    · simp
  unfold finishing
  dsimp only
  split
  · rename_i items hitems
    rw [hitems] at hshort h
    rw [Value.isShort, Value.areShort_iff] at hshort
    refine List.forall_mem_flatMap.mpr fun v hv => List.forall_mem_append.mpr ⟨?_, ?_⟩
    · exact hread v fun hvalue => (h hvalue).reads v hv plan.policy
    · split
      · simp
      · exact List.forall_mem_singleton.mpr (hshort v hv)
  · exact hread _ fun hvalue => (h hvalue).read plan.policy

/-- Its value may be written then. -/
theorem isShort_finishRule (plan : ParsePlan) (hshort : r.value.isShort digits = true)
    (h : r.comparesFields = false → r.value.Fits digits) :
    (finishRule plan r).value.isShort digits = true := by
  have hconvert (v : Value) (hv : v.isShort digits = true)
      (hread : r.comparesFields = false → (Conversion.read plan.policy v).fits digits = true) :
      (if readsNumbers r then v.withNumbers plan.policy else v).isShort digits = true := by
    split
    · rename_i hreads
      exact Value.isShort_withNumbers hv (hread (comparesFields_of_readsNumbers hreads))
    · exact hv
  unfold finishRule
  dsimp only
  split
  · rename_i items hitems
    dsimp only
    rw [hitems] at hshort h
    rw [Value.isShort, Value.areShort_iff] at hshort
    split
    · rw [Value.isShort, Value.areShort_iff]
      exact List.forall_mem_map.mpr fun v hv =>
        hconvert v (hshort v hv) fun hvalue => (h hvalue).reads v hv plan.policy
    · rfl
  · exact hconvert _ hshort fun hvalue => (h hvalue).read plan.policy

end Clause
end RuleTree
