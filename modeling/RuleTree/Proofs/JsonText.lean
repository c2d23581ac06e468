import RuleTree.Json.Reader
import RuleTree.Json.Writer
import RuleTree.Proofs.Integers

/-! # JSON texts that read back

What `Json.pretty` writes of a value is read by `Json.read` as the value, if its
numbers are integers and no key of a map in it has two entries (`Json.read_pretty`).

The reader leaves a shorter text after every step, and `Leaves` says which.  Each
production has its lemma, for the piece that is written with any text behind it: a
character between quotes, a text, a word, an integer, an item, an entry.  Only an
integer minds what follows, since digits, a point or an exponent would go on with it;
a comma or a line break, which is all that ever follows, does not (`Stops`).  From
there the values are read back by induction on them.
-/
namespace RuleTree
namespace Json

/-- The step reads `a` and leaves the text `rest`. -/
def Leaves {cs : List Char} {α : Type} (step : Step cs α) (a : α) (rest : List Char) : Prop :=
  ∃ h, step = .ok (a, ⟨rest, h⟩)

/-! ### Characters between quotes -/

theorem hexValue?_digitChar {d : Nat} (h : d < 16) : hexValue? d.digitChar = some d := by
  revert d
  decide

theorem exists_hexDigits (n : Nat) : ∃ a b c d, Text.hexDigits 4 n = [a, b, c, d] := by
  simp [Text.hexDigits]

/-- The digits of a code unit are read as the unit. -/
theorem hexNumber?_hexDigits {n : Nat} (h : n < 0x10000) :
    hexNumber? (Text.hexDigits 4 n) = some n := by
  have hdigit (d : Nat) : hexValue? (d % 16).digitChar = some (d % 16) :=
    hexValue?_digitChar (Nat.mod_lt d (by decide))
  simp only [hexNumber?, Text.hexDigits, List.nil_append, List.cons_append, List.foldlM_cons,
    List.foldlM_nil, hdigit, Option.map_some, Option.bind_eq_bind, Option.bind_some, pure,
    Option.some.injEq]
  omega

/-- The digits of a code unit are read as the unit if the text goes on. -/
theorem readUnit?_hexDigits {n : Nat} (h : n < 0x10000) {rest : List Char} (hne : rest ≠ []) :
    readUnit? (Text.hexDigits 4 n ++ rest) = some (n, rest) := by
  obtain ⟨a, b, c, d, hdigits⟩ := exists_hexDigits n
  obtain ⟨next, rest, rfl⟩ := List.exists_cons_of_ne_nil hne
  have hnumber : hexNumber? [a, b, c, d] = some n := hdigits ▸ hexNumber?_hexDigits h
  rw [hdigits]
  simp only [List.cons_append, List.nil_append, readUnit?, hnumber, Option.map_some]

/-- A character that one code unit writes is read back. -/
theorem readUnicode_hexDigits {c : Char} (h : c.toNat < 0x10000) {rest : List Char}
    (hne : rest ≠ []) : readUnicode (Text.hexDigits 4 c.toNat ++ rest) = .ok (c, rest) := by
  have hvalid : c.toNat < 0xD800 ∨ 0xE000 ≤ c.toNat := by
    rcases c.valid with hlow | hhigh
    · exact .inl hlow
    · exact .inr (by have := hhigh.1; show 0xE000 ≤ c.val.toNat; omega)
  rw [readUnicode, readUnit?_hexDigits h hne]
  have hhigh : ¬(0xD800 ≤ c.toNat ∧ c.toNat < 0xDC00) := by omega
  have hhalf : ¬(0xD800 ≤ c.toNat ∧ c.toNat < 0xE000) := by omega
  simp only [if_neg hhigh, unitChar, if_neg hhalf, Char.ofNat_toNat]

/-- A character that a surrogate pair writes is read back. -/
theorem readUnicode_surrogates {c : Char} (h : 0x10000 ≤ c.toNat) {rest : List Char}
    (hne : rest ≠ []) :
    readUnicode (Text.hexDigits 4 (0xD800 + (c.toNat - 0x10000) / 1024) ++
      (unitEscape (0xDC00 + (c.toNat - 0x10000) % 1024) ++ rest)) = .ok (c, rest) := by
  have hmax : c.toNat < 0x110000 := by
    rcases c.valid with hlow | hhigh
    · show c.val.toNat < 0x110000
      omega
    · exact hhigh.2
  have hlength : ¬(Text.hexDigits 4 (0xDC00 + (c.toNat - 0x10000) % 1024) ++ rest).length < 5 := by
    obtain ⟨_, _, _, _, hdigits⟩ := exists_hexDigits (0xDC00 + (c.toNat - 0x10000) % 1024)
    have := List.length_pos_iff.mpr hne
    rw [hdigits]
    simp only [List.length_append, List.length_cons, List.length_nil]
    omega
  have hlow : readLowHalf (unitEscape (0xDC00 + (c.toNat - 0x10000) % 1024) ++ rest) =
      .ok (some (0xDC00 + (c.toNat - 0x10000) % 1024, rest)) := by
    have hunit : 0xDC00 + (c.toNat - 0x10000) % 1024 < 0xE000 := by omega
    simp only [unitEscape, List.cons_append, readLowHalf, if_neg hlength]
    rw [readUnit?_hexDigits (by omega) hne]
    simp [hunit]
  have hunit : 0xD800 ≤ 0xD800 + (c.toNat - 0x10000) / 1024 ∧
      0xD800 + (c.toNat - 0x10000) / 1024 < 0xDC00 := by omega
  have hvalue : 0x10000 + (0xD800 + (c.toNat - 0x10000) / 1024 - 0xD800) * 1024 +
      (0xDC00 + (c.toNat - 0x10000) % 1024 - 0xDC00) = c.toNat := by omega
  rw [readUnicode, readUnit?_hexDigits (by omega) (by simp [unitEscape])]
  simp only [if_pos hunit, hlow, bind, Except.bind]
  rw [hvalue, Char.ofNat_toNat]
  rfl

section
variable {opening rest left chars : List Char} {c e : Char}

theorem readText_quote : Leaves (readText opening ('"' :: rest)) [] rest := by
  rw [readText]
  exact ⟨_, rfl⟩

theorem readText_cons (hquote : c ≠ '"') (hslash : c ≠ '\\') (hcontrol : 32 ≤ c.toNat)
    (h : Leaves (readText opening rest) chars left) :
    Leaves (readText opening (c :: rest)) (c :: chars) left := by
  obtain ⟨hlt, h⟩ := h
  have hc : ¬c.toNat < 32 := by omega
  rw [readText]
  · simp only [if_neg hc, h]
    exact ⟨_, rfl⟩
  all_goals simp_all

theorem readText_escaped (he : escaped? e = some c)
    (h : Leaves (readText opening rest) chars left) :
    Leaves (readText opening ('\\' :: e :: rest)) (c :: chars) left := by
  obtain ⟨hlt, h⟩ := h
  rw [readText]
  · simp only [he, h]
    exact ⟨_, rfl⟩
  · rintro rfl
    cases he

theorem readText_unicode {after : List Char} (hu : readUnicode rest = .ok (c, after))
    (h : Leaves (readText opening after) chars left) :
    Leaves (readText opening ('\\' :: 'u' :: rest)) (c :: chars) left := by
  obtain ⟨hlt, h⟩ := h
  rw [readText]
  split
  · simp_all
  · rename_i hu'
    rw [hu] at hu'
    cases hu'
    simp only [h]
    exact ⟨_, rfl⟩

end

/-- The four ways in which a character stands between quotes. -/
theorem escapedChar_cases (c : Char) :
    (∃ e, escaped? e = some c ∧ escapedChar c = ['\\', e]) ∨
      (c ≠ '"' ∧ c ≠ '\\' ∧ 32 ≤ c.toNat ∧ escapedChar c = [c]) ∨
      (c.toNat < 0x10000 ∧ escapedChar c = unitEscape c.toNat) ∨
      (0x10000 ≤ c.toNat ∧ escapedChar c = unitEscape (0xD800 + (c.toNat - 0x10000) / 1024) ++
        unitEscape (0xDC00 + (c.toNat - 0x10000) % 1024)) := by
  have hletter (e : Char) (he : escaped? e = some c) :
      ∃ e', escaped? e' = some c ∧ ['\\', e] = ['\\', e'] := ⟨e, he, rfl⟩
  rw [escapedChar]
  by_cases hmark : c = '"' ∨ c = '\\'
  · rw [if_pos hmark]
    rcases hmark with rfl | rfl
    · exact .inl (hletter _ rfl)
    · exact .inl (hletter _ rfl)
  rw [if_neg hmark]
  obtain ⟨hquote, hslash⟩ := not_or.mp hmark
  -- the five characters that a letter stands for
  by_cases hc : c = '\n'
  · rw [if_pos hc]
    exact .inl (hletter _ (by rw [hc]; rfl))
  rw [if_neg hc]
  by_cases hc : c = '\r'
  · rw [if_pos hc]
    exact .inl (hletter _ (by rw [hc]; rfl))
  rw [if_neg hc]
  by_cases hc : c = '\t'
  · rw [if_pos hc]
    exact .inl (hletter _ (by rw [hc]; rfl))
  rw [if_neg hc]
  by_cases hc : c = '\x0c'
  · rw [if_pos hc]
    exact .inl (hletter _ (by rw [hc]; rfl))
  rw [if_neg hc]
  by_cases hc : c = '\x08'
  · rw [if_pos hc]
    exact .inl (hletter _ (by rw [hc]; rfl))
  rw [if_neg hc]
  by_cases hplain : 32 ≤ c.toNat ∧ c.toNat < 127
  · exact .inr (.inl ⟨hquote, hslash, hplain.1, if_pos hplain⟩)
  rw [if_neg hplain]
  by_cases hunit : c.toNat < 0x10000
  · exact .inr (.inr (.inl ⟨hunit, if_pos hunit⟩))
  · exact .inr (.inr (.inr ⟨by omega, if_neg hunit⟩))

/-- A character is read back from what stands for it between quotes. -/
theorem readText_escapedChar (c : Char) {opening rest left chars : List Char} (hne : rest ≠ [])
    (h : Leaves (readText opening rest) chars left) :
    Leaves (readText opening (escapedChar c ++ rest)) (c :: chars) left := by
  rcases escapedChar_cases c with ⟨e, he, hc⟩ | ⟨hquote, hslash, hcontrol, hc⟩ | ⟨hunit, hc⟩ |
    ⟨hastral, hc⟩ <;> rw [hc]
  · exact readText_escaped he h
  · exact readText_cons hquote hslash hcontrol h
  · exact readText_unicode (readUnicode_hexDigits hunit hne) h
  · rw [List.append_assoc]
    exact readText_unicode (readUnicode_surrogates hastral hne) h

/-- A text is read back from between its quotes. -/
theorem readText_textLiteral (opening cs rest : List Char) :
    Leaves (readText opening (cs.flatMap escapedChar ++ '"' :: rest)) cs rest := by
  induction cs with
  | nil => exact readText_quote
  | cons c cs ih =>
    rw [List.flatMap_cons, List.append_assoc]
    exact readText_escapedChar c (by simp) ih

theorem toList_textLiteral (s : String) :
    (textLiteral s).toList = '"' :: (s.toList.flatMap escapedChar ++ ['"']) := by
  rw [textLiteral, String.toList_ofList, List.cons_append]

theorem readValue_text (s : String) (rest : List Char) :
    Leaves (readValue ((textLiteral s).toList ++ rest)) (.text s) rest := by
  obtain ⟨hlt, h⟩ := readText_textLiteral
    ('"' :: (s.toList.flatMap escapedChar ++ '"' :: rest)) s.toList rest
  rw [toList_textLiteral, List.cons_append, List.append_assoc, List.singleton_append, readValue]
  simp only [h, String.ofList_toList]
  exact ⟨_, rfl⟩

/-! ### Words and numbers -/

/-- What may follow a value: nothing, a comma, or the next line. -/
def Stops (rest : List Char) : Prop := ∀ c ∈ rest.head?, c = ',' ∨ c = '\n'

theorem readValue_eq_readScalar {c : Char} {cs : List Char} (h : c ≠ '"' ∧ c ≠ '[' ∧ c ≠ '\x7b') :
    readValue (c :: cs) = readScalar (c :: cs) := by
  rw [readValue] <;> simp_all

/-- A word that is a value of its own is read before any number. -/
theorem readScalar_word {word : List Char} {v : Value} {rest : List Char}
    (hfound : (words.find? fun w => w.1.isPrefixOf (word ++ rest) && !w.1.isEmpty) = some (word, v)) :
    Leaves (readScalar (word ++ rest)) v rest := by
  have hlength : rest.length < (word ++ rest).length := by
    have hword := List.find?_some hfound
    simp only [Bool.and_eq_true, Bool.not_eq_eq_eq_not, Bool.not_true, List.isEmpty_eq_false_iff]
      at hword
    have := List.length_pos_iff.mpr hword.2
    rw [List.length_append]
    omega
  have hdrop : (word ++ rest).drop word.length = rest := List.drop_left
  refine ⟨hlength, ?_⟩
  rw [readScalar, hfound]
  simp only [hdrop, hlength, dite_true]

theorem readValue_null (rest : List Char) : Leaves (readValue ("null".toList ++ rest)) .null rest := by
  have hread : Leaves (readScalar ("null".toList ++ rest)) .null rest := readScalar_word rfl
  exact readValue_eq_readScalar (c := 'n') (by decide) ▸ hread

theorem readValue_bool (b : Bool) (rest : List Char) :
    Leaves (readValue ((if b then "true" else "false").toList ++ rest)) (.bool b) rest := by
  cases b with
  | false =>
    have hread : Leaves (readScalar ("false".toList ++ rest)) (.bool false) rest :=
      readScalar_word rfl
    exact readValue_eq_readScalar (c := 'f') (by decide) ▸ hread
  | true =>
    have hread : Leaves (readScalar ("true".toList ++ rest)) (.bool true) rest :=
      readScalar_word rfl
    exact readValue_eq_readScalar (c := 't') (by decide) ▸ hread

/-- Only zero is written with a zero in front. -/
theorem head?_toDigits {n : Nat} (h : n ≠ 0) : (Nat.toDigits 10 n).head? ≠ some '0' := by
  induction n using Nat.strong_induction_on with
  | _ n ih =>
    by_cases hn : n < 10
    · rw [Nat.toDigits_of_lt_base hn]
      have hdigits : ∀ d < 10, d ≠ 0 → [Nat.digitChar d].head? ≠ some '0' := by decide
      exact hdigits n hn h
    · rw [Nat.toDigits_of_base_le (by decide) (by omega), List.head?_append,
        Option.or_of_isSome (by simp [Nat.toDigits_ne_nil])]
      exact ih (n / 10) (by omega) (by omega)

theorem isDigit_of_isDigit {c : Char} (h : c.isDigit = true) : isDigit c = true := by
  simp only [Char.isDigit, Bool.and_eq_true, decide_eq_true_eq] at h
  simp only [isDigit, Bool.and_eq_true, decide_eq_true_eq]
  exact h

theorem isDigit_eq_false {rest : List Char} (h : Stops rest) {c : Char} (hc : c ∈ rest.head?) :
    isDigit c = false := by
  rcases h c hc with rfl | rfl <;> decide

/-- The digits of an integer are taken whole. -/
theorem takeWhole_intDigits (n : Int) {rest : List Char} (h : Stops rest) :
    takeWhole (Value.intDigits n ++ rest) = Value.intDigits n := by
  by_cases hzero : n.natAbs = 0
  · rw [Value.intDigits, hzero]
    rfl
  · have hall : ∀ c ∈ Value.intDigits n, isDigit c = true :=
      fun c hc => isDigit_of_isDigit (Value.isDigit_of_mem_intDigits hc)
    have htake : rest.takeWhile isDigit = [] := by
      cases rest with
      | nil => rfl
      | cons c rest => simp [isDigit_eq_false h (c := c) (by simp)]
    obtain ⟨c, cs, hc⟩ := List.exists_cons_of_ne_nil (Value.intDigits_ne_nil n)
    have hhead : c ≠ '0' := by
      rintro rfl
      exact head?_toDigits hzero (by rw [← Value.intDigits, hc]; rfl)
    have htakeWhile : (Value.intDigits n ++ rest).takeWhile isDigit = Value.intDigits n := by
      rw [List.takeWhile_append_of_pos hall, htake, List.append_nil]
    rw [hc, List.cons_append] at htakeWhile ⊢
    rw [takeWhole, htakeWhile]
    rintro _ ⟨rfl, -⟩
    exact hhead rfl

theorem takeFraction_eq_nil {rest : List Char} (h : Stops rest) : takeFraction rest = [] := by
  cases rest with
  | nil => rfl
  | cons c rest => rcases h c (by simp) with rfl | rfl <;> rfl

theorem takeExponent_eq_nil {rest : List Char} (h : Stops rest) : takeExponent rest = [] := by
  cases rest with
  | nil => rfl
  | cons c rest => rcases h c (by simp) with rfl | rfl <;> rfl

/-- The text of an integer is taken whole. -/
theorem takeNumber_intText (n : Int) {rest : List Char} (h : Stops rest) :
    takeNumber ((Value.intText n).toList ++ rest) = (Value.intText n).toList := by
  have hwhole := takeWhole_intDigits n h
  have hne : (Value.intDigits n).isEmpty = false := by simp [Value.intDigits_ne_nil]
  rw [Value.toList_intText]
  split
  · have hdrop : List.drop (1 + (Value.intDigits n).length)
        ('-' :: (Value.intDigits n ++ rest)) = rest := by
      rw [Nat.add_comm, List.drop_succ_cons, List.drop_left]
    simp [takeNumber, hwhole, hne, hdrop, takeFraction_eq_nil h, takeExponent_eq_nil h]
  · obtain ⟨c, cs, hc⟩ := List.exists_cons_of_ne_nil (Value.intDigits_ne_nil n)
    have hminus : c ≠ '-' := by
      rintro rfl
      have := Value.isDigit_of_mem_intDigits (n := n) (hc ▸ List.mem_cons_self)
      cases this
    rw [hc, List.cons_append] at hwhole ⊢
    simp [takeNumber, hwhole, hminus, takeFraction_eq_nil h, takeExponent_eq_nil h]

theorem numberValue_intText (n : Int) : numberValue (Value.intText n).toList = .int n := by
  rw [numberValue, Numeral.read?_intText_self]
  simp only [Numeral.value_ofInt, Value.ofNumber]

/-- No word is a number. -/
theorem find?_intText (n : Int) (rest : List Char) :
    (words.find? fun w => w.1.isPrefixOf ((Value.intText n).toList ++ rest) && !w.1.isEmpty) =
      none := by
  obtain ⟨c, cs, hc⟩ := List.exists_cons_of_ne_nil (Value.intDigits_ne_nil n)
  have hdigit : c.isDigit = true :=
    Value.isDigit_of_mem_intDigits (n := n) (hc ▸ List.mem_cons_self)
  have hnone : ∀ letter ∈ ['n', 't', 'f', 'N', 'I', '-'], letter.isDigit = false := by
    simp [Char.isDigit]
  have hletters : ∀ letter ∈ ['n', 't', 'f', 'N', 'I', '-'], letter ≠ c := by
    rintro _ hletter rfl
    rw [hnone _ hletter] at hdigit
    cases hdigit
  simp only [List.forall_mem_cons] at hletters
  rw [Value.toList_intText, hc]
  split <;> simp [words, hletters]

theorem readScalar_int (n : Int) {rest : List Char} (h : Stops rest) :
    Leaves (readScalar ((Value.intText n).toList ++ rest)) (.int n) rest := by
  have hlength : rest.length < ((Value.intText n).toList ++ rest).length := by
    have := List.length_pos_iff.mpr (Value.intText_ne_nil n)
    rw [List.length_append]
    omega
  have hdrop : ((Value.intText n).toList ++ rest).drop (Value.intText n).toList.length = rest :=
    List.drop_left
  refine ⟨hlength, ?_⟩
  rw [readScalar, find?_intText]
  simp only [takeNumber_intText n h, numberValue_intText, hdrop, hlength, dite_true,
    isWithin_none, if_true]

/-! ### Lists and maps -/

section
variable {cs rest after left : List Char} {v : Value} {items : List Value}

theorem readValue_emptyList (rest : List Char) :
    Leaves (readValue ('[' :: ']' :: rest)) (.list []) rest := by
  rw [readValue]
  exact ⟨_, rfl⟩

theorem readValue_emptyMap (rest : List Char) :
    Leaves (readValue ('\x7b' :: '\x7d' :: rest)) (.map []) rest := by
  rw [readValue]
  exact ⟨_, rfl⟩

theorem readValue_list (hne : ∀ more, skipSpace cs ≠ ']' :: more)
    (h : Leaves (readItems (skipSpace cs)) items left) :
    Leaves (readValue ('[' :: cs)) (.list items) left := by
  obtain ⟨hlt, h⟩ := h
  rw [readValue]
  split
  · exact absurd ‹_› (hne _)
  · simp only [h]
    exact ⟨_, rfl⟩

theorem readValue_map {entries : List (String × Value)} (hne : ∀ more, skipSpace cs ≠ '\x7d' :: more)
    (h : Leaves (readEntries [] (skipSpace cs)) entries left) :
    Leaves (readValue ('\x7b' :: cs)) (.map entries) left := by
  obtain ⟨hlt, h⟩ := h
  rw [readValue]
  split
  · exact absurd ‹_› (hne _)
  · simp only [h]
    exact ⟨_, rfl⟩

theorem readItems_last (hv : Leaves (readValue cs) v after) (hend : skipSpace after = ']' :: left) :
    Leaves (readItems cs) [v] left := by
  obtain ⟨hlt, h⟩ := hv
  rw [readItems]
  simp only [h]
  split
  · rename_i hm
    obtain rfl := (List.cons.inj (hend.symm.trans hm)).2
    exact ⟨_, rfl⟩
  · simp_all
  · simp_all

theorem readItems_cons (hv : Leaves (readValue cs) v after) (hnext : skipSpace after = ',' :: rest)
    (h : Leaves (readItems (skipSpace rest)) items left) :
    Leaves (readItems cs) (v :: items) left := by
  obtain ⟨_, hv⟩ := hv
  obtain ⟨_, h⟩ := h
  rw [readItems]
  simp only [hv]
  split
  · simp_all
  · rename_i hm
    obtain rfl := (List.cons.inj (hnext.symm.trans hm)).2
    simp only [h]
    exact ⟨_, rfl⟩
  · simp_all

section
variable {before : List (String × Value)} {key : String} {value : List Char}

theorem readEntries_last
    (hv : Leaves (readValue (skipSpace cs)) v after) (hend : skipSpace after = '\x7d' :: left) :
    Leaves (readEntries before ((textLiteral key).toList ++ ':' :: cs))
      (Value.insert key v before) left := by
  obtain ⟨_, hv⟩ := hv
  obtain ⟨_, hkey⟩ := readText_textLiteral
    ('"' :: (key.toList.flatMap escapedChar ++ '"' :: ':' :: cs)) key.toList (':' :: cs)
  have hcolon : skipSpace (':' :: cs) = ':' :: cs := rfl
  rw [toList_textLiteral, List.cons_append, List.append_assoc, List.singleton_append, readEntries]
  simp only [hkey]
  split
  · rename_i hm
    obtain rfl := (List.cons.inj (hcolon.symm.trans hm)).2
    simp only [hv, String.ofList_toList]
    split
    · rename_i hm'
      obtain rfl := (List.cons.inj (hend.symm.trans hm')).2
      exact ⟨_, rfl⟩
    · simp_all
    · simp_all
  · simp_all

theorem readEntries_cons {entries : List (String × Value)}
    (hv : Leaves (readValue (skipSpace cs)) v after) (hnext : skipSpace after = ',' :: rest)
    (h : Leaves (readEntries (Value.insert key v before) (skipSpace rest)) entries left) :
    Leaves (readEntries before ((textLiteral key).toList ++ ':' :: cs)) entries left := by
  obtain ⟨_, hv⟩ := hv
  obtain ⟨_, h⟩ := h
  obtain ⟨_, hkey⟩ := readText_textLiteral
    ('"' :: (key.toList.flatMap escapedChar ++ '"' :: ':' :: cs)) key.toList (':' :: cs)
  have hcolon : skipSpace (':' :: cs) = ':' :: cs := rfl
  rw [toList_textLiteral, List.cons_append, List.append_assoc, List.singleton_append, readEntries]
  simp only [hkey]
  split
  · rename_i hm
    obtain rfl := (List.cons.inj (hcolon.symm.trans hm)).2
    simp only [hv, String.ofList_toList]
    split
    · simp_all
    · rename_i hm'
      obtain rfl := (List.cons.inj (hnext.symm.trans hm')).2
      simp only [h]
      exact ⟨_, rfl⟩
    · simp_all
  · simp_all

end

end

/-! ### Values on several lines -/

/-- The values that texts in JSON give back: numbers are integers, and no key of a map
has two entries. -/
inductive IsData : Value → Prop where
  | null : IsData .null
  | bool (b : Bool) : IsData (.bool b)
  | int (n : Int) : IsData (.int n)
  | text (s : String) : IsData (.text s)
  | list {items : List Value} : (∀ v ∈ items, IsData v) → IsData (.list items)
  | map {entries : List (String × Value)} : (entries.map Prod.fst).Nodup →
      (∀ e ∈ entries, IsData e.2) → IsData (.map entries)

theorem skipSpace_newline (level : Nat) (cs : List Char) :
    skipSpace ((newline level).toList ++ cs) = skipSpace cs := by
  have hall : ∀ c ∈ (newline level).toList, isSpace c = true := by
    intro c hc
    rw [newline, String.toList_ofList] at hc
    rcases List.mem_cons.mp hc with rfl | hc
    · rfl
    · rw [List.eq_of_mem_replicate hc]
      rfl
  rw [skipSpace, List.dropWhile_append_of_pos hall, skipSpace]

theorem stops_newline (level : Nat) (cs : List Char) : Stops ((newline level).toList ++ cs) := by
  intro c hc
  rw [newline, String.toList_ofList] at hc
  exact .inr (Option.some.inj hc).symm

/-- A value starts neither with a blank or a byte order mark nor as the end of a list. -/
def Starts (cs : List Char) : Prop :=
  ∃ c rest, cs = c :: rest ∧ isSpace c = false ∧ c ≠ ']' ∧ c ≠ '\ufeff'

theorem Starts.append {cs : List Char} (h : Starts cs) (rest : List Char) :
    Starts (cs ++ rest) := by
  obtain ⟨c, cs, rfl, hc⟩ := h
  exact ⟨c, cs ++ rest, rfl, hc⟩

theorem Starts.skipSpace_eq {cs : List Char} (h : Starts cs) : skipSpace cs = cs := by
  obtain ⟨c, rest, rfl, hc, -⟩ := h
  simp [skipSpace, hc]

theorem Starts.ne_bracket {cs : List Char} (h : Starts cs) (rest : List Char) :
    cs ≠ ']' :: rest := by
  obtain ⟨c, cs, rfl, -, hc, -⟩ := h
  exact fun he => hc (List.cons.inj he).1

theorem starts_textLiteral (s : String) : Starts (textLiteral s).toList :=
  ⟨_, _, toList_textLiteral s, by decide, by decide, by decide⟩

theorem starts_intText (n : Int) : Starts (Value.intText n).toList := by
  obtain ⟨c, cs, hc⟩ := List.exists_cons_of_ne_nil (Value.intText_ne_nil n)
  have hnone : ∀ d ∈ Value.numeric, isSpace d = false ∧ d ≠ ']' ∧ d ≠ '\ufeff' := by
    simp [Value.numeric, isSpace]
  exact ⟨c, cs, hc, hnone c (Value.mem_numeric_of_mem_intText (n := n) (hc ▸ List.mem_cons_self))⟩

section
variable (level : Nat)

theorem prettyAt_null : prettyAt level .null = "null" := rfl

theorem prettyAt_bool (b : Bool) : prettyAt level (.bool b) = if b then "true" else "false" := rfl

theorem prettyAt_int (n : Int) : prettyAt level (.int n) = Value.intText n := rfl

theorem prettyAt_text (s : String) : prettyAt level (.text s) = textLiteral s := rfl

theorem prettyAt_nil : prettyAt level (.list []) = "[]" := rfl

theorem prettyAt_empty : prettyAt level (.map []) = "\x7b\x7d" := rfl

theorem toList_prettyAt_list (v : Value) (items : List Value) (rest : List Char) :
    (prettyAt level (.list (v :: items))).toList ++ rest =
      '[' :: ((newline (level + 1)).toList ++ ((prettyAt (level + 1) v).toList ++
        ((prettyItems (level + 1) items).toList ++ ((newline level).toList ++ ']' :: rest)))) := by
  simp [prettyAt]

theorem toList_prettyAt_map (key : String) (v : Value) (entries : List (String × Value))
    (rest : List Char) :
    (prettyAt level (.map ((key, v) :: entries))).toList ++ rest =
      '\x7b' :: ((newline (level + 1)).toList ++ ((textLiteral key).toList ++ ':' :: ' ' ::
        ((prettyAt (level + 1) v).toList ++ ((prettyEntries (level + 1) entries).toList ++
          ((newline level).toList ++ '\x7d' :: rest))))) := by
  simp [prettyAt]

end

theorem starts_prettyAt {v : Value} (h : IsData v) (level : Nat) :
    Starts (prettyAt level v).toList := by
  cases h with
  | null => rw [prettyAt_null]; exact ⟨'n', ['u', 'l', 'l'], rfl, by decide, by decide, by decide⟩
  | bool b =>
    rw [prettyAt_bool]
    cases b with
    | false => exact ⟨'f', ['a', 'l', 's', 'e'], rfl, by decide, by decide, by decide⟩
    | true => exact ⟨'t', ['r', 'u', 'e'], rfl, by decide, by decide, by decide⟩
  | int n => rw [prettyAt_int]; exact starts_intText n
  | text s => rw [prettyAt_text]; exact starts_textLiteral s
  | @list items _ =>
    cases items with
    | nil => rw [prettyAt_nil]; exact ⟨'[', [']'], rfl, by decide, by decide, by decide⟩
    | cons v items =>
      rw [← List.append_nil (prettyAt _ _).toList, toList_prettyAt_list]
      exact ⟨_, _, rfl, by decide, by decide, by decide⟩
  | @map entries _ _ =>
    cases entries with
    | nil => rw [prettyAt_empty]; exact ⟨'\x7b', ['\x7d'], rfl, by decide, by decide, by decide⟩
    | cons e entries =>
      rw [← List.append_nil (prettyAt _ _).toList, toList_prettyAt_map]
      exact ⟨_, _, rfl, by decide, by decide, by decide⟩

/-- A value is read back from its lines. -/
def ReadsBack (v : Value) : Prop :=
  ∀ (level : Nat) {rest : List Char}, Stops rest →
    Leaves (readValue ((prettyAt level v).toList ++ rest)) v rest

theorem stops_prettyItems (level outer : Nat) (items : List Value) (rest : List Char) :
    Stops ((prettyItems level items).toList ++ ((newline outer).toList ++ rest)) := by
  cases items with
  | nil => simpa [prettyItems] using stops_newline outer rest
  | cons v items =>
    intro c hc
    simp [prettyItems] at hc
    exact .inl hc.symm

theorem stops_prettyEntries (level outer : Nat) (entries : List (String × Value))
    (rest : List Char) :
    Stops ((prettyEntries level entries).toList ++ ((newline outer).toList ++ rest)) := by
  cases entries with
  | nil => simpa [prettyEntries] using stops_newline outer rest
  | cons e entries =>
    intro c hc
    simp [prettyEntries] at hc
    exact .inl hc.symm

/-- The items of a list are read back in a row. -/
theorem readItems_pretty (level outer : Nat) (rest : List Char) {v : Value} {items : List Value}
    (h : ∀ w ∈ v :: items, IsData w ∧ ReadsBack w) :
    Leaves (readItems ((prettyAt level v).toList ++ ((prettyItems level items).toList ++
      ((newline outer).toList ++ ']' :: rest)))) (v :: items) rest := by
  induction items generalizing v with
  | nil =>
    have hv := (h v List.mem_cons_self).2 level (stops_prettyItems level outer [] (']' :: rest))
    refine readItems_last hv ?_
    rw [prettyItems, String.toList_empty, List.nil_append, skipSpace_newline]
    rfl
  | cons w items ih =>
    obtain ⟨hv, hrest⟩ := List.forall_mem_cons.mp h
    have hw := (List.forall_mem_cons.mp hrest).1
    have hread := hv.2 level (stops_prettyItems level outer (w :: items) (']' :: rest))
    have hcomma : skipSpace ((prettyItems level (w :: items)).toList ++
        ((newline outer).toList ++ ']' :: rest)) =
        ',' :: ((newline level).toList ++ ((prettyAt level w).toList ++
          ((prettyItems level items).toList ++ ((newline outer).toList ++ ']' :: rest)))) := by
      simp [prettyItems, skipSpace, isSpace]
    refine readItems_cons hread hcomma ?_
    rw [skipSpace_newline, ((starts_prettyAt hw.1 level).append _).skipSpace_eq]
    exact ih hrest

theorem insert_of_nodup {key : String} {v : Value} {before entries : List (String × Value)}
    (h : ((before ++ (key, v) :: entries).map Prod.fst).Nodup) :
    Value.insert key v before = before ++ [(key, v)] := by
  induction before with
  | nil => rfl
  | cons e before ih =>
    obtain ⟨k, w⟩ := e
    rw [List.cons_append, List.map_cons, List.nodup_cons] at h
    have hne : k ≠ key := by
      rintro rfl
      exact h.1 (by simp)
    rw [Value.insert, if_neg hne, ih h.2, List.cons_append]

/-- A value is read back from behind the colon of its entry. -/
theorem readValue_blank {v : Value} (h : IsData v ∧ ReadsBack v) (level : Nat) {rest : List Char}
    (hrest : Stops rest) :
    Leaves (readValue (skipSpace (' ' :: ((prettyAt level v).toList ++ rest)))) v rest := by
  have hblank : skipSpace (' ' :: ((prettyAt level v).toList ++ rest)) =
      (prettyAt level v).toList ++ rest := ((starts_prettyAt h.1 level).append rest).skipSpace_eq
  rw [hblank]
  exact h.2 level hrest

/-- The entries of a map are read back in a row. -/
theorem readEntries_pretty (level outer : Nat) (rest : List Char) {key : String} {v : Value}
    {entries before : List (String × Value)}
    (h : ∀ e ∈ (key, v) :: entries, IsData e.2 ∧ ReadsBack e.2)
    (hkeys : ((before ++ (key, v) :: entries).map Prod.fst).Nodup) :
    Leaves (readEntries before ((textLiteral key).toList ++ ':' :: ' ' ::
      ((prettyAt level v).toList ++ ((prettyEntries level entries).toList ++
        ((newline outer).toList ++ '\x7d' :: rest))))) (before ++ (key, v) :: entries) rest := by
  induction entries generalizing key v before with
  | nil =>
    have hv := readValue_blank (h _ List.mem_cons_self) level
      (stops_prettyEntries level outer [] ('\x7d' :: rest))
    rw [← insert_of_nodup hkeys]
    refine readEntries_last hv ?_
    rw [prettyEntries, String.toList_empty, List.nil_append, skipSpace_newline]
    rfl
  | cons e entries ih =>
    obtain ⟨next, w⟩ := e
    obtain ⟨hfirst, hrest⟩ := List.forall_mem_cons.mp h
    have hv := readValue_blank hfirst level
      (stops_prettyEntries level outer ((next, w) :: entries) ('\x7d' :: rest))
    have hcomma : skipSpace ((prettyEntries level ((next, w) :: entries)).toList ++
        ((newline outer).toList ++ '\x7d' :: rest)) =
        ',' :: ((newline level).toList ++ ((textLiteral next).toList ++
          ':' :: ' ' :: ((prettyAt level w).toList ++ ((prettyEntries level entries).toList ++
            ((newline outer).toList ++ '\x7d' :: rest))))) := by
      simp [prettyEntries, skipSpace, isSpace]
    refine readEntries_cons hv hcomma ?_
    rw [insert_of_nodup hkeys, skipSpace_newline,
      ((starts_textLiteral next).append _).skipSpace_eq]
    have happend : before ++ (key, v) :: (next, w) :: entries =
        before ++ [(key, v)] ++ (next, w) :: entries := List.append_cons _ _ _
    rw [happend] at hkeys ⊢
    exact ih hrest hkeys

/-- Values are read back from their lines. -/
theorem readsBack {v : Value} (h : IsData v) : ReadsBack v := by
  induction h with
  | null =>
    intro level rest _
    rw [prettyAt_null]
    exact readValue_null rest
  | bool b =>
    intro level rest _
    rw [prettyAt_bool]
    exact readValue_bool b rest
  | int n =>
    intro level rest hrest
    rw [prettyAt_int]
    obtain ⟨c, cs, hc⟩ := List.exists_cons_of_ne_nil (Value.intText_ne_nil n)
    have hread := readScalar_int n hrest
    have hnone : ∀ d ∈ Value.numeric, d ≠ '"' ∧ d ≠ '[' ∧ d ≠ '\x7b' := by
      simp [Value.numeric]
    have hhead := hnone c (Value.mem_numeric_of_mem_intText (n := n) (hc ▸ List.mem_cons_self))
    rw [hc, List.cons_append] at hread ⊢
    rw [readValue_eq_readScalar hhead]
    exact hread
  | text s =>
    intro level rest _
    rw [prettyAt_text]
    exact readValue_text s rest
  | @list items hitems ih =>
    intro level rest _
    cases items with
    | nil =>
      rw [prettyAt_nil]
      exact readValue_emptyList rest
    | cons v items =>
      have hall : ∀ w ∈ v :: items, IsData w ∧ ReadsBack w := fun w hw => ⟨hitems w hw, ih w hw⟩
      have hread := readItems_pretty (level + 1) level rest hall
      have hstart := (starts_prettyAt (hitems v List.mem_cons_self) (level + 1)).append
        ((prettyItems (level + 1) items).toList ++ ((newline level).toList ++ ']' :: rest))
      rw [toList_prettyAt_list]
      refine readValue_list ?_ ?_
      · rw [skipSpace_newline, hstart.skipSpace_eq]
        exact hstart.ne_bracket
      · rw [skipSpace_newline, hstart.skipSpace_eq]
        exact hread
  | @map entries hkeys hentries ih =>
    intro level rest _
    cases entries with
    | nil =>
      rw [prettyAt_empty]
      exact readValue_emptyMap rest
    | cons e entries =>
      obtain ⟨key, v⟩ := e
      have hall : ∀ e ∈ (key, v) :: entries, IsData e.2 ∧ ReadsBack e.2 :=
        fun e he => ⟨hentries e he, ih e he⟩
      have hread : Leaves (readEntries [] _) _ rest :=
        readEntries_pretty (level + 1) level rest hall hkeys
      have hstart := (starts_textLiteral key).append (':' :: ' ' ::
        ((prettyAt (level + 1) v).toList ++ ((prettyEntries (level + 1) entries).toList ++
          ((newline level).toList ++ '\x7d' :: rest))))
      rw [toList_prettyAt_map]
      refine readValue_map ?_ ?_
      · rw [skipSpace_newline, hstart.skipSpace_eq, toList_textLiteral]
        exact fun _ he => absurd (List.cons.inj he).1 (by decide)
      · rw [skipSpace_newline, hstart.skipSpace_eq]
        exact hread

/-- **Round trip.**  What is written of a value on several lines is read as the value. -/
theorem read_pretty {v : Value} (h : IsData v) : read (pretty v).toList = .ok v := by
  have hback : Leaves (readValue ((prettyAt 0 v).toList ++ [])) v [] :=
    readsBack h 0 (by simp [Stops])
  rw [List.append_nil, ← (starts_prettyAt h 0).skipSpace_eq] at hback
  obtain ⟨hlt, hread⟩ := hback
  have hwhole : readWhole (prettyAt 0 v).toList = .ok v := by
    unfold readWhole
    split
    · rename_i cs hmark
      obtain ⟨c, rest, hc, -, -, hne⟩ := starts_prettyAt h 0
      exact absurd (List.cons.inj (hc.symm.trans hmark)).1 hne
    · rw [hread]
      rfl
  rw [read, pretty, hwhole]
  rfl

end Json
end RuleTree
