import RuleTree.Proofs.Integers
import RuleTree.Proofs.LetterCase

/-! # Flat values

Nulls, truth values, integers and texts, and lists of these, are what rules usually hold.
The items of such a value are no lists, and no item of any value has blanks at its ends, be
it one of a list or a piece of a text (`Value.trimmed_of_mem_rawItems`).  So nothing more
is taken off the items of a list of items, and neither is of their texts
(`Value.display_of_mem_toItems`).
-/
namespace RuleTree
open Text

/-! ### Pieces -/

namespace Text
variable {c : Char}

/-- Taking backslashes off commas leaves the first character, or makes it a comma. -/
theorem head?_replaceAll_comma {cs : List Char}
    (h : c ∈ (replaceAll ['\\', ','] [','] cs).head?) : c = ',' ∨ c ∈ cs.head? := by
  cases cs with
  | nil => cases h
  | cons d cs =>
    rw [replaceAll, if_neg (by simp), replaceFrom] at h
    split at h
    · exact Or.inl (Option.some.inj h).symm
    · exact Or.inr h

/-- A character is left of every text that does not start within an occurrence. -/
theorem replaceFrom_comma_eq_nil {cs : List Char}
    (h : replaceFrom ['\\', ','] [','] 0 cs = []) : cs = [] := by
  cases cs with
  | nil => rfl
  | cons d cs =>
    rw [replaceFrom] at h
    split at h <;> cases h

theorem mem_getLast?_cons {d : Char} {cs : List Char} (h : c ∈ (d :: cs).getLast?) :
    cs = [] ∧ c = d ∨ c ∈ cs.getLast? := by
  cases cs with
  | nil => exact Or.inl ⟨rfl, (Option.some.inj h).symm⟩
  | cons e cs =>
    rw [List.getLast?_cons_cons] at h
    exact Or.inr h

/-- It leaves the last character too, or makes it a comma. -/
theorem getLast?_replaceFrom_comma {skip : Nat} {cs : List Char}
    (h : c ∈ (replaceFrom ['\\', ','] [','] skip cs).getLast?) : c = ',' ∨ c ∈ cs.getLast? := by
  induction cs generalizing skip with
  | nil =>
    rw [replaceFrom] at h
    cases h
  | cons d cs ih =>
    have hlater : c = ',' ∨ c ∈ cs.getLast? → c = ',' ∨ c ∈ (d :: cs).getLast? :=
      Or.imp_right fun hc => by
        rw [List.getLast?_cons, Option.mem_def.mp hc]
        rfl
    cases skip with
    | succ skip =>
      rw [replaceFrom] at h
      exact hlater (ih h)
    | zero =>
      rw [replaceFrom] at h
      split at h
      · rcases mem_getLast?_cons h with ⟨-, rfl⟩ | h
        · exact Or.inl rfl
        · exact hlater (ih h)
      · rcases mem_getLast?_cons h with ⟨hnil, rfl⟩ | h
        · obtain rfl := replaceFrom_comma_eq_nil hnil
          exact Or.inr rfl
        · exact hlater (ih h)

end Text

/-! ### Items -/

namespace Value

/-- Null, a truth value, an integer or a text. -/
def isPlain : Value → Bool
  | .null | .bool _ | .int _ | .text _ => true
  | _ => false

/-- Such a value or a list of such values. -/
def isFlat : Value → Bool
  | .list items => items.all isPlain
  | v => v.isPlain

variable {v item : Value}

theorem isFlat_of_isPlain (h : v.isPlain = true) : v.isFlat = true := by
  cases v <;> first | exact h | cases h

theorem trimmed_trimmed (v : Value) : v.trimmed.trimmed = v.trimmed := by
  cases v with
  | text s => simp only [trimmed, trim, String.toList_ofList, trimBoth_trimBoth]
  | _ => rfl

/-- A piece of a text is trimmed before its commas are dealt with, and stays so. -/
theorem trimmed_itemOfPiece (piece : List Char) :
    (itemOfPiece piece).trimmed = itemOfPiece piece := by
  have htrimmed := trimBoth_trimBoth piece
  have hcomma : isBlank ',' = false := by decide
  have hends : trimBoth (replaceAll ['\\', ','] [','] (trimBoth piece)) =
      replaceAll ['\\', ','] [','] (trimBoth piece) := by
    refine trimBoth_eq_self (fun c hc => ?_) fun c hc => ?_
    · rcases head?_replaceAll_comma hc with rfl | hc
      · exact hcomma
      · exact isBlank_head?_of_trimBoth htrimmed c hc
    · rw [replaceAll, if_neg (by simp)] at hc
      rcases getLast?_replaceFrom_comma hc with rfl | hc
      · exact hcomma
      · exact isBlank_getLast?_of_trimBoth htrimmed c hc
  simp only [itemOfPiece, trimmed, trim, String.toList_ofList, hends]

/-- No item has blanks at its ends. -/
theorem trimmed_of_mem_rawItems (h : item ∈ v.rawItems) : item.trimmed = item := by
  cases v with
  | list items =>
    obtain ⟨given, -, rfl⟩ := List.mem_map.mp h
    exact trimmed_trimmed given
  | text s =>
    obtain ⟨piece, -, rfl⟩ := List.mem_map.mp h
    exact trimmed_itemOfPiece piece
  | null => cases h
  | bool | int | float | map =>
    obtain rfl := List.mem_singleton.mp h
    rfl

/-- The items of a flat value are no lists. -/
theorem isPlain_of_mem_rawItems (hv : v.isFlat = true) (h : item ∈ v.rawItems) :
    item.isPlain = true := by
  cases v with
  | list items =>
    obtain ⟨given, hgiven, rfl⟩ := List.mem_map.mp h
    have hplain : given.isPlain = true := List.all_eq_true.mp hv given hgiven
    cases given <;> first | rfl | cases hplain
  | text s =>
    obtain ⟨piece, -, rfl⟩ := List.mem_map.mp h
    rfl
  | null => cases h
  | bool | int =>
    obtain rfl := List.mem_singleton.mp h
    rfl
  | float | map => cases hv

theorem mem_toItems : item ∈ v.toItems ↔ item ∈ v.rawItems ∧ item.isBlankValue = false := by
  simp [toItems]

/-- The bounds of a range are items of it. -/
theorem mem_toItems_of_bounds? {low high : Value} (h : v.bounds? = some (low, high)) :
    low ∈ v.toItems ∧ high ∈ v.toItems := by
  have hitem : ∀ place ∈ v.toPlaces, place.isBlankValue = false → place ∈ v.toItems := by
    intro place hplace hblank
    obtain ⟨item, hitem, rfl⟩ := List.mem_map.mp hplace
    cases item with
    | null => cases hblank
    | _ => exact mem_toItems.mpr ⟨hitem, hblank⟩
  unfold bounds? at h
  split at h
  · rename_i first second rest hplaces
    rw [hplaces] at hitem
    split at h
    · cases h
    · rename_i hblank
      obtain ⟨hlow, hhigh⟩ := Bool.or_eq_false_iff.mp (Bool.eq_false_iff.mpr hblank)
      cases h
      exact ⟨hitem _ (by simp) hlow, hitem _ (by simp) hhigh⟩
  · cases h

/-- The text of an item of a flat value is not empty, and has no blanks at its ends. -/
theorem display_of_mem_toItems (hv : v.isFlat = true) (h : item ∈ v.toItems) :
    item.display ≠ "" ∧ trim item.display = item.display := by
  obtain ⟨hraw, hblank⟩ := mem_toItems.mp h
  have hplain := isPlain_of_mem_rawItems hv hraw
  have htrimmed := trimmed_of_mem_rawItems hraw
  cases item with
  | null => cases hblank
  | bool b => cases b <;> exact ⟨by decide, by decide⟩
  | int n =>
    rw [display_int]
    refine ⟨fun he => intText_ne_nil n (by rw [he]; rfl), ?_⟩
    rw [trim, trimBoth_intText, String.ofList_toList]
  | text s => exact ⟨by simpa [isBlankValue] using hblank, Value.text.inj htrimmed⟩
  | float | list | map => cases hplain

end Value
end RuleTree
