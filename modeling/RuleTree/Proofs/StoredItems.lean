import Mathlib.Data.List.Basic
import RuleTree.Proofs.Quoting
import RuleTree.Value.Items

/-! # Items in one text

Several items are stored as one text, with a comma between them and a backslash before every
comma that belongs to an item.  Commas that belong to items are told from the others by that
backslash, so the items are found again (`Value.rawItems_joinItems`), unless one ends with a
backslash of its own, which takes the comma behind it along.  Outer blanks are lost, and so
are empty items where only proper ones are asked for (`Value.toItems_joinItems`).  A comma
that is taken along is one item less, so lists and bounds come back exactly if no item but
the last ends with a backslash (`Value.stored_items_return_iff`).
-/
namespace RuleTree
namespace Text

/-! ### Commas -/

/-- A text with a backslash before every comma. -/
def guarded (cs : List Char) : List Char := cs.flatMap fun c => if c = ',' then ['\\', ','] else [c]

@[simp] theorem guarded_nil : guarded [] = [] := rfl

theorem guarded_cons_comma (cs : List Char) : guarded (',' :: cs) = '\\' :: ',' :: guarded cs := by
  simp [guarded]

theorem guarded_cons_ne {c : Char} (h : c ≠ ',') (cs : List Char) :
    guarded (c :: cs) = c :: guarded cs := by
  simp [guarded, h]

/-- The first character is never a comma. -/
theorem head?_guarded_ne (cs : List Char) : ∀ c ∈ (guarded cs).head?, c ≠ ',' := by
  cases cs with
  | nil => simp
  | cons c cs =>
    by_cases h : c = ','
    · subst h
      simp [guarded_cons_comma]
    · simp [guarded_cons_ne h, h]

/-- Whether the last character is a backslash; where there is none, that before the text. -/
def endsEscaped (escaped : Bool) (cs : List Char) : Bool :=
  (cs.getLast?.map (· == '\\')).getD escaped

theorem endsEscaped_cons (escaped : Bool) (c : Char) (cs : List Char) :
    endsEscaped escaped (c :: cs) = endsEscaped (c == '\\') cs := by
  cases cs with
  | nil => rfl
  | cons d ds =>
    rw [endsEscaped, endsEscaped, List.getLast?_cons_cons,
      List.getLast?_eq_some_getLast (List.cons_ne_nil d ds)]
    rfl

/-- A text is not cut at its guarded commas. -/
theorem splitCommas_guarded (escaped : Bool) (cs : List Char) :
    splitCommas escaped (guarded cs) = [guarded cs] := by
  induction cs generalizing escaped with
  | nil => rfl
  | cons c cs ih =>
    by_cases h : c = ','
    · subst h
      rw [guarded_cons_comma]
      simp [splitCommas, ih]
    · rw [guarded_cons_ne h]
      simp [splitCommas, ih, h]

/-- A comma that a backslash precedes cuts nothing off, and no other character does. -/
theorem length_splitCommas_cons {escaped : Bool} {c : Char} (h : c = ',' → escaped = true)
    (cs : List Char) :
    (splitCommas escaped (c :: cs)).length = (splitCommas (c == '\\') cs).length := by
  have hcut : (c == ',' && !escaped) = false := by
    by_cases hc : c = ','
    · simp [h hc]
    · simp [hc]
  obtain ⟨piece, pieces, hrest⟩ := List.exists_cons_of_ne_nil (splitCommas_ne_nil (c == '\\') cs)
  simp [splitCommas, hcut, hrest]

/-- A text that ends with a backslash takes the comma behind it along. -/
theorem length_splitCommas_guarded_append {escaped : Bool} {cs : List Char}
    (h : endsEscaped escaped cs = true) (rest : List Char) :
    (splitCommas escaped (guarded cs ++ ',' :: rest)).length = (splitCommas false rest).length := by
  induction cs generalizing escaped with
  | nil => exact length_splitCommas_cons (fun _ => h) rest
  | cons c cs ih =>
    rw [endsEscaped_cons] at h
    by_cases hc : c = ','
    · subst hc
      have hescaped : ',' = ',' → ('\\' == '\\') = true := fun _ => rfl
      rw [guarded_cons_comma, List.cons_append, List.cons_append,
        length_splitCommas_cons fun he => absurd he (by decide), length_splitCommas_cons hescaped]
      exact ih h
    · rw [guarded_cons_ne hc, List.cons_append, length_splitCommas_cons fun he => absurd he hc]
      exact ih h

/-- A text ends at the comma behind it, unless a backslash is before that. -/
theorem splitCommas_guarded_append {escaped : Bool} {cs : List Char}
    (h : endsEscaped escaped cs = false) (rest : List Char) :
    splitCommas escaped (guarded cs ++ ',' :: rest) = guarded cs :: splitCommas false rest := by
  induction cs generalizing escaped with
  | nil =>
    have hescaped : escaped = false := h
    simp [splitCommas, hescaped]
  | cons c cs ih =>
    rw [endsEscaped_cons] at h
    by_cases hc : c = ','
    · subst hc
      have hrest : splitCommas false (guarded cs ++ ',' :: rest) =
          guarded cs :: splitCommas false rest := ih h
      rw [guarded_cons_comma]
      simp [splitCommas, hrest]
    · rw [guarded_cons_ne hc, List.cons_append, splitCommas, ih h]
      simp [hc]

/-- Guarded commas are plain again without their backslashes. -/
theorem replaceAll_guarded (cs : List Char) : replaceAll ['\\', ','] [','] (guarded cs) = cs := by
  have hfrom : replaceFrom ['\\', ','] [','] 0 (guarded cs) = cs := by
    induction cs with
    | nil => rfl
    | cons c cs ih =>
      by_cases h : c = ','
      · subst h
        rw [guarded_cons_comma]
        simp [replaceFrom, List.isPrefixOf, ih]
      · -- a backslash of the text is not followed by a plain comma
        have hplain : ['\\', ','].isPrefixOf (c :: guarded cs) = false := by
          have hnext := head?_guarded_ne cs
          cases hcs : guarded cs with
          | nil => simp [List.isPrefixOf]
          | cons d ds =>
            rw [hcs] at hnext
            have hd : d ≠ ',' := hnext d rfl
            simp [List.isPrefixOf, Ne.symm hd]
        rw [guarded_cons_ne h, replaceFrom, hplain, if_neg Bool.false_ne_true, ih]
  simpa [replaceAll] using hfrom

/-! ### Outer blanks -/

/-- A text that is trimmed to itself starts with no blank. -/
theorem isBlank_head?_of_trimBoth {cs : List Char} (h : trimBoth cs = cs) :
    ∀ c ∈ cs.head?, isBlank c = false := by
  cases cs with
  | nil => simp
  | cons c cs =>
    rintro _ ⟨⟩
    by_contra hblank
    have hlength : (trimBoth (c :: cs)).length ≤ cs.length := by
      rw [trimBoth, trimEnd, trimStart, List.dropWhile_cons_of_pos (by simpa using hblank),
        List.length_reverse]
      calc _ ≤ (cs.dropWhile isBlank).reverse.length := List.length_dropWhile_le _ _
        _ = (cs.dropWhile isBlank).length := List.length_reverse
        _ ≤ cs.length := List.length_dropWhile_le _ _
    rw [h, List.length_cons] at hlength
    omega

/-- A text that is trimmed to itself ends with no blank. -/
theorem isBlank_getLast?_of_trimBoth {cs : List Char} (h : trimBoth cs = cs) :
    ∀ c ∈ cs.getLast?, isBlank c = false := by
  intro c hc
  have hstart : trimStart cs = cs := by
    cases cs with
    | nil => rfl
    | cons d ds =>
      have hd : isBlank d = false := isBlank_head?_of_trimBoth h d rfl
      rw [trimStart, List.dropWhile_cons_of_neg (by simp [hd])]
  rw [trimBoth, hstart, trimEnd] at h
  have hreverse : cs.reverse.dropWhile isBlank = cs.reverse := by
    rw [← List.reverse_eq_iff, h]
  have hhead := List.head?_dropWhile_not isBlank cs.reverse
  rw [hreverse, List.head?_reverse, hc] at hhead
  exact hhead

/-- The last character is that of the text. -/
theorem getLast?_guarded (cs : List Char) : (guarded cs).getLast? = cs.getLast? := by
  rcases cs.eq_nil_or_concat with rfl | ⟨ds, d, rfl⟩
  · rfl
  · rw [guarded, List.concat_eq_append, List.flatMap_append, List.flatMap_singleton]
    split <;> simp_all

theorem trimBoth_guarded {cs : List Char} (h : trimBoth cs = cs) :
    trimBoth (guarded cs) = guarded cs := by
  refine trimBoth_eq_self (fun c hc => ?_) fun c hc => ?_
  · cases cs with
    | nil => cases hc
    | cons d ds =>
      by_cases hd : d = ','
      · subst hd
        rw [guarded_cons_comma] at hc
        obtain rfl := Option.some.inj hc
        decide
      · rw [guarded_cons_ne hd] at hc
        exact isBlank_head?_of_trimBoth h c hc
  · rw [getLast?_guarded] at hc
    exact isBlank_getLast?_of_trimBoth h c hc

end Text

/-! ### Items -/

namespace Value
open Text

theorem toList_storedItem (s : String) : (storedItem (.text s)).toList = guarded s.toList := by
  rw [storedItem, display_text, toList_replace_singleton s "," "\\," rfl]
  · rfl
  · exact nofun

theorem toList_joinItems_cons_cons (s next : String) (rest : List String) :
    (joinItems ((s :: next :: rest).map .text)).toList =
      guarded s.toList ++ ',' :: (joinItems ((next :: rest).map .text)).toList := by
  rw [joinItems, List.map_cons, List.map_cons, List.map_cons, List.map_cons,
    joinWith_cons_cons, String.toList_append, String.toList_append, toList_storedItem,
    List.append_assoc]
  rfl

/-- Whether a text ends with a backslash. -/
theorem endsEscaped_false_iff (s : String) :
    endsEscaped false s.toList = true ↔ s.toList.getLast? = some '\\' := by
  cases hlast : s.toList.getLast? <;> simp [endsEscaped, hlast]

/-- An item is found in its piece. -/
theorem itemOfPiece_guarded {s : String} (h : trim s = s) :
    itemOfPiece (guarded s.toList) = .text s := by
  have htrim : trimBoth s.toList = s.toList := by
    have hlist := congrArg String.toList h
    rwa [trim, String.toList_ofList] at hlist
  rw [itemOfPiece, trimBoth_guarded htrim, replaceAll_guarded, String.ofList_toList]

/-- **Stored items.**  Items without outer blanks of which none but the last ends with a
backslash are found again in the text that they are stored in. -/
theorem rawItems_joinItems {names : List String} (hne : names ≠ [])
    (htrim : ∀ s ∈ names, trim s = s)
    (hend : ∀ s ∈ names.dropLast, s.toList.getLast? ≠ some '\\') :
    (Value.text (joinItems (names.map .text))).rawItems = names.map .text := by
  have hpieces (s : String) (rest : List String) (htrim : ∀ t ∈ s :: rest, trim t = t)
      (hend : ∀ t ∈ (s :: rest).dropLast, t.toList.getLast? ≠ some '\\') :
      (splitCommas false (joinItems ((s :: rest).map .text)).toList).map itemOfPiece =
        (s :: rest).map .text := by
    induction rest generalizing s with
    | nil =>
      rw [joinItems, List.map_singleton, List.map_singleton, joinWith_singleton,
        toList_storedItem, splitCommas_guarded, List.map_singleton,
        itemOfPiece_guarded (htrim s List.mem_cons_self)]
    | cons next rest ih =>
      obtain ⟨hs, hrest⟩ := List.forall_mem_cons.mp htrim
      rw [List.dropLast_cons_cons] at hend
      obtain ⟨hlast, hothers⟩ := List.forall_mem_cons.mp hend
      have hfree : endsEscaped false s.toList = false := by
        rwa [← Bool.not_eq_true, endsEscaped_false_iff]
      rw [toList_joinItems_cons_cons, splitCommas_guarded_append hfree, List.map_cons,
        itemOfPiece_guarded hs, ih next hrest hothers]
      rfl
  cases names with
  | nil => exact absurd rfl hne
  | cons s rest => exact hpieces s rest htrim hend

/-- Proper items are found again where only such are asked for. -/
theorem toItems_joinItems {names : List String} (hproper : ∀ s ∈ names, s ≠ "" ∧ trim s = s)
    (hend : ∀ s ∈ names.dropLast, s.toList.getLast? ≠ some '\\') :
    (Value.text (joinItems (names.map .text))).toItems = names.map .text := by
  cases names with
  | nil => rfl
  | cons s rest =>
    rw [toItems, rawItems_joinItems (List.cons_ne_nil s rest) (fun t ht => (hproper t ht).2) hend,
      List.filter_eq_self]
    refine List.forall_mem_map.mpr fun t ht => ?_
    simp [isBlankValue, (hproper t ht).1]

/-- Proper items are those of their list. -/
theorem toItems_list {names : List String} (hproper : ∀ s ∈ names, s ≠ "" ∧ trim s = s) :
    (Value.list (names.map .text)).toItems = names.map .text := by
  have hraw : (Value.list (names.map .text)).rawItems = names.map .text := by
    rw [rawItems, List.map_map]
    refine List.map_congr_left fun t ht => ?_
    rw [Function.comp_apply, trimmed, (hproper t ht).2]
  rw [toItems, hraw, List.filter_eq_self]
  refine List.forall_mem_map.mpr fun t ht => ?_
  simp [isBlankValue, (hproper t ht).1]

/-- A proper text without commas is the one item of itself. -/
theorem toItems_text {s : String} (hproper : s ≠ "" ∧ trim s = s) (hcomma : ',' ∉ s.toList) :
    (Value.text s).toItems = [.text s] := by
  have hguarded : guarded s.toList = s.toList := by
    have hplain : ∀ c ∈ s.toList, (if c = ',' then ['\\', ','] else [c]) = [c] :=
      fun c hc => if_neg (ne_of_mem_of_not_mem hc hcomma)
    rw [guarded, List.flatMap_congr hplain, List.flatMap_singleton']
  have hstored : joinItems ([s].map .text) = s := by
    rw [joinItems, List.map_singleton, List.map_singleton, joinWith_singleton,
      ← String.toList_inj, toList_storedItem, hguarded]
  have hitems : (Value.text (joinItems ([s].map .text))).toItems = [s].map .text :=
    toItems_joinItems (by simpa using hproper) (by simp)
  rwa [hstored] at hitems

/-! ### Items that run together -/

/-- As many items are lost as end with a backslash, the last one left aside. -/
theorem length_splitCommas_joinItems (s : String) (rest : List String) :
    (splitCommas false (joinItems ((s :: rest).map .text)).toList).length +
      ((s :: rest).dropLast.countP fun t => t.toList.getLast? = some '\\') =
        (s :: rest).length := by
  induction rest generalizing s with
  | nil =>
    rw [joinItems, List.map_singleton, List.map_singleton, joinWith_singleton, toList_storedItem,
      splitCommas_guarded]
    rfl
  | cons next rest ih =>
    have hnext := ih next
    rw [toList_joinItems_cons_cons, List.dropLast_cons_cons, List.countP_cons, List.length_cons]
    by_cases hend : s.toList.getLast? = some '\\'
    · rw [length_splitCommas_guarded_append ((endsEscaped_false_iff s).mpr hend)]
      simp only [hend, decide_true, if_true]
      omega
    · have hfree : endsEscaped false s.toList = false := by
        rwa [← Bool.not_eq_true, endsEscaped_false_iff]
      rw [splitCommas_guarded_append hfree, List.length_cons]
      simp only [hend, decide_false, Bool.false_eq_true, if_false]
      omega

/-- Where no item is lost, none but the last ends with a backslash. -/
theorem getLast?_ne_of_length_le {names : List String}
    (h : names.length ≤ (Value.text (joinItems (names.map .text))).rawItems.length) :
    ∀ s ∈ names.dropLast, s.toList.getLast? ≠ some '\\' := by
  cases names with
  | nil => simp
  | cons s rest =>
    have hcount := length_splitCommas_joinItems s rest
    rw [rawItems, List.length_map] at h
    have hnone : ((s :: rest).dropLast.countP fun t => t.toList.getLast? = some '\\') = 0 := by
      omega
    simpa using List.countP_eq_zero.mp hnone

/-- **Lists in one text.**  Proper items that are stored in one text are its items again, and
so are two bounds without outer blanks at their places, exactly if none but the last ends with a
backslash. -/
theorem stored_items_return_iff (names : List String) (low high : String) :
    ((∀ s ∈ names, s ≠ "" ∧ trim s = s) →
      ((Value.text (joinItems (names.map .text))).toItems = names.map .text ↔
        ∀ s ∈ names.dropLast, s.toList.getLast? ≠ some '\\')) ∧
    (trim low = low → trim high = high →
      ((Value.text (joinItems [.text low, .text high])).toPlaces = [.text low, .text high] ↔
        low.toList.getLast? ≠ some '\\')) := by
  refine ⟨fun hproper => ⟨fun h => ?_, toItems_joinItems hproper⟩,
    fun hlow hhigh => ⟨fun h => ?_, fun hend => ?_⟩⟩
  · have hlength : names.length = (Value.text (joinItems (names.map .text))).toItems.length := by
      rw [h, List.length_map]
    exact getLast?_ne_of_length_le (hlength.trans_le (List.length_filter_le _ _))
  · have hlength := congrArg List.length h
    rw [toPlaces, List.length_map] at hlength
    have hends : ∀ s ∈ [low, high].dropLast, s.toList.getLast? ≠ some '\\' :=
      getLast?_ne_of_length_le hlength.ge
    exact hends low (by simp)
  · have hends : ∀ s ∈ [low, high].dropLast, s.toList.getLast? ≠ some '\\' := by simpa using hend
    have hraw : (Value.text (joinItems ([low, high].map .text))).rawItems =
        [low, high].map .text :=
      rawItems_joinItems (List.cons_ne_nil _ _) (by simp [hlow, hhigh]) hends
    rw [toPlaces, show (Value.text (joinItems [.text low, .text high])).rawItems = _ from hraw]
    rfl

/-- Items with commas and backslashes, and a range without a lower bound. -/
theorem stored_items_return_iff_specimen :
    (Value.text (joinItems [.text ",a\\,", .text "b\\c", .text "\\"])).toItems =
        [.text ",a\\,", .text "b\\c", .text "\\"] ∧
      (Value.text (joinItems [.text "", .text ",\\"])).toPlaces = [.text "", .text ",\\"] := by
  obtain ⟨hitems, hbounds⟩ := stored_items_return_iff [",a\\,", "b\\c", "\\"] "" ",\\"
  exact ⟨(hitems (by decide)).mpr (by decide), (hbounds (by decide) (by decide)).mpr (by decide)⟩

/-- An item that ends with a backslash runs together with the next one. -/
theorem stored_items_return_iff_runTogether :
    (∀ s ∈ ["a\\", "b"], s ≠ "" ∧ trim s = s) ∧
      (Value.text (joinItems [.text "a\\", .text "b"])).toItems = [.text "a,b"] ∧
      (Value.text (joinItems [.text "a\\", .text "b"])).toItems ≠ [.text "a\\", .text "b"] ∧
      (Value.text (joinItems [.text "a\\", .text "b"])).toPlaces ≠ [.text "a\\", .text "b"] := by
  have hitems : (Value.text (joinItems [.text "a\\", .text "b"])).toItems = [.text "a,b"] := rfl
  have hplaces : (Value.text (joinItems [.text "a\\", .text "b"])).toPlaces = [.text "a,b"] := rfl
  refine ⟨by decide, hitems, ?_, ?_⟩
  · simp [hitems]
  · simp [hplaces]

end Value
end RuleTree
