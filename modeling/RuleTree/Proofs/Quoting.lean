import Mathlib.Data.Bool.AllAny
import Mathlib.Data.List.TakeDrop
import Mathlib.Data.List.TakeWhile
import RuleTree.Source.Lexicon
import RuleTree.Sql.Literal
import RuleTree.Text.Pieces
import RuleTree.Text.Quoted

/-! # Texts in quotes

A text between quotes has its quotes doubled (`Text.doubled`) or a backslash
before every quote and every backslash (`Text.backslashed`).  Both are what the
writers produce, both end at the first quote that they leave alone
(`closeDoubled?_doubled`, `closeEscaped?_backslashed`), and both give the text
back (`replaceAll_doubled`, `unescaped_backslashed`).
-/
namespace RuleTree
namespace Text
open Source

/-- Replacing one character is done character by character. -/
theorem replaceAll_singleton (p : Char) (by' cs : List Char) :
    replaceAll [p] by' cs = cs.flatMap fun c => if c = p then by' else [c] := by
  have hfrom : replaceFrom [p] by' 0 cs = cs.flatMap fun c => if c = p then by' else [c] := by
    induction cs with
    | nil => rfl
    | cons c cs ih =>
      by_cases h : c = p
      · subst h
        simp [replaceFrom, List.isPrefixOf, ih]
      · simp [replaceFrom, List.isPrefixOf, h, Ne.symm h, ih]
  simpa [replaceAll] using hfrom

theorem toList_replace_singleton (s pattern by' : String) {p : Char}
    (hp : pattern.toList = [p]) :
    (replace s pattern by').toList =
      s.toList.flatMap fun c => if c = p then by'.toList else [c] := by
  rw [replace, String.toList_ofList, hp, replaceAll_singleton]

/-! ### Doubled quotes -/

/-- A text with every quote doubled. -/
def doubled (quote : Char) (cs : List Char) : List Char :=
  cs.flatMap fun c => if c = quote then [quote, quote] else [c]

@[simp] theorem doubled_nil (quote : Char) : doubled quote [] = [] := rfl

theorem doubled_cons_self (quote : Char) (cs : List Char) :
    doubled quote (quote :: cs) = quote :: quote :: doubled quote cs := by
  simp [doubled]

theorem doubled_cons_ne {quote c : Char} (h : c ≠ quote) (cs : List Char) :
    doubled quote (c :: cs) = c :: doubled quote cs := by
  simp [doubled, h]

theorem mem_doubled {quote c : Char} {cs : List Char} : c ∈ doubled quote cs ↔ c ∈ cs := by
  have hsame (d : Char) : (c ∈ if d = quote then [quote, quote] else [d]) ↔ d = c := by
    split
    · next hd => simp [hd, eq_comm]
    · simp [eq_comm]
  simp [doubled, List.mem_flatMap, hsame]

theorem length_doubled (quote : Char) (cs : List Char) :
    (doubled quote cs).length = cs.length + cs.count quote := by
  induction cs with
  | nil => rfl
  | cons c cs ih =>
    by_cases hc : c = quote
    · subst hc
      rw [doubled_cons_self, List.count_cons_self]
      simp only [List.length_cons, ih]
      omega
    · rw [doubled_cons_ne hc, List.count_cons_of_ne hc]
      simp only [List.length_cons, ih]
      omega

/-- Only quotes are changed. -/
theorem doubled_eq_self_iff {quote : Char} {cs : List Char} :
    doubled quote cs = cs ↔ quote ∉ cs := by
  constructor
  · intro h
    have hlength := length_doubled quote cs
    rw [h] at hlength
    exact List.count_eq_zero.mp (by omega)
  · intro h
    induction cs with
    | nil => rfl
    | cons c cs ih =>
      obtain ⟨hc, hcs⟩ := not_or.mp (mt List.mem_cons.mpr h)
      rw [doubled_cons_ne (Ne.symm hc), ih hcs]

/-- Taking the doubled quotes single gives the text back. -/
theorem replaceAll_doubled (quote : Char) (cs : List Char) :
    replaceAll [quote, quote] [quote] (doubled quote cs) = cs := by
  have hfrom : replaceFrom [quote, quote] [quote] 0 (doubled quote cs) = cs := by
    induction cs with
    | nil => rfl
    | cons c cs ih =>
      by_cases h : c = quote
      · subst h
        rw [doubled_cons_self]
        simp [replaceFrom, List.isPrefixOf, ih]
      · rw [doubled_cons_ne h]
        simp [replaceFrom, List.isPrefixOf, Ne.symm h, ih]
  simpa [replaceAll] using hfrom

/-- The text ends at the quote behind it, unless another one follows that. -/
theorem closeDoubled?_doubled {quote : Char} {rest : List Char}
    (hrest : ∀ c ∈ rest.head?, c ≠ quote) (cs : List Char) :
    closeDoubled? quote (doubled quote cs ++ quote :: rest) =
      some ((doubled quote cs).length + 1) := by
  induction cs with
  | nil =>
    cases rest with
    | nil => simp [closeDoubled?]
    | cons c rest =>
      have hc : c ≠ quote := hrest c (by simp)
      simp [closeDoubled?, hc]
  | cons c cs ih =>
    by_cases h : c = quote
    · subst h
      rw [doubled_cons_self]
      simp [closeDoubled?, ih]
    · rw [doubled_cons_ne h]
      -- something follows, at least the closing quote
      obtain ⟨d, ds, hd⟩ : ∃ d ds, doubled quote cs ++ quote :: rest = d :: ds :=
        List.exists_cons_of_ne_nil (by simp)
      rw [List.cons_append, hd, closeDoubled?, if_neg h, ← hd, ih]
      simp

theorem toList_doubleQuotes (s : String) : (Sql.doubleQuotes s).toList = doubled '\'' s.toList := by
  rw [Sql.doubleQuotes, toList_replace_singleton _ _ _ (p := '\'') rfl]
  rfl

/-- A text as a literal of SQL, character by character. -/
theorem toList_textLiteral (s : String) :
    (Sql.textLiteral s).toList = '\'' :: (doubled '\'' s.toList ++ ['\'']) := by
  simp [Sql.textLiteral, toList_doubleQuotes]

/-- It ends at its last quote. -/
theorem closeDoubled?_textLiteral (s : String) {rest : List Char}
    (h : ∀ c ∈ rest.head?, c ≠ '\'') :
    closeDoubled? '\'' ((doubled '\'' s.toList ++ ['\'']) ++ rest) =
      some (doubled '\'' s.toList ++ ['\'']).length := by
  rw [List.append_assoc, List.singleton_append, closeDoubled?_doubled h, List.length_append,
    List.length_singleton]

/-! ### Backslashes -/

/-- A text with a backslash before every backslash and every quote. -/
def backslashed (quote : Char) (cs : List Char) : List Char :=
  cs.flatMap fun c => if c = '\\' ∨ c = quote then ['\\', c] else [c]

@[simp] theorem backslashed_nil (quote : Char) : backslashed quote [] = [] := rfl

theorem backslashed_cons_pos {quote c : Char} (h : c = '\\' ∨ c = quote) (cs : List Char) :
    backslashed quote (c :: cs) = '\\' :: c :: backslashed quote cs := by
  simp [backslashed, h]

theorem backslashed_cons_neg {quote c : Char} (h : ¬(c = '\\' ∨ c = quote)) (cs : List Char) :
    backslashed quote (c :: cs) = c :: backslashed quote cs := by
  simp [backslashed, h]

/-- Escaping the backslashes first leaves only the new ones before quotes. -/
theorem toList_escaped (s : String) :
    (escaped "\"" s).toList = backslashed '"' s.toList := by
  rw [escaped, toList_replace_singleton _ _ _ (p := '"') rfl,
    toList_replace_singleton _ _ _ (p := '\\') rfl, List.flatMap_assoc, backslashed]
  refine congrArg (s.toList.flatMap ·) (funext fun c => ?_)
  by_cases hb : c = '\\'
  · subst hb; rfl
  · by_cases hq : c = '"'
    · subst hq; rfl
    · simp [hb, hq]

/-- Taking the backslashes away gives the text back, for a quote that is no line
break and no letter with a meaning of its own behind a backslash. -/
theorem unescaped_backslashed {quote : Char} (hq : escapedMeaning quote = quote)
    (hn : quote ≠ '\n') (cs : List Char) : unescaped (backslashed quote cs) = cs := by
  induction cs with
  | nil => rfl
  | cons c cs ih =>
    by_cases h : c = '\\' ∨ c = quote
    · have hc : escapedMeaning c = c := h.elim (fun h => h ▸ rfl) (fun h => h ▸ hq)
      have hc' : c ≠ '\n' := h.elim (fun h => h ▸ by decide) (fun h => h ▸ hn)
      rw [backslashed_cons_pos h, unescaped, if_neg hc', hc, ih]
    · have hb : c ≠ '\\' := fun hb => h (Or.inl hb)
      rw [backslashed_cons_neg h, unescaped, ih]
      · exact fun he _ => hb he
      · exact fun d ds he _ => hb he

/-- The text ends at the quote behind it. -/
theorem closeEscaped?_backslashed {quote : Char} (hb : quote ≠ '\\') (hn : quote ≠ '\n')
    (cs rest : List Char) :
    closeEscaped? quote (backslashed quote cs ++ quote :: rest) =
      some ((backslashed quote cs).length + 1) := by
  induction cs with
  | nil =>
    rw [backslashed_nil, List.nil_append, closeEscaped?, if_pos rfl]
    · rfl
    · exact fun he _ => hb he
    · exact fun d ds he _ => hb he
  | cons c cs ih =>
    by_cases h : c = '\\' ∨ c = quote
    · have hc : c ≠ '\n' := h.elim (fun h => h ▸ by decide) (fun h => h ▸ hn)
      rw [backslashed_cons_pos h]
      simp [closeEscaped?, hc, ih]
    · have hcb : c ≠ '\\' := fun hc => h (Or.inl hc)
      have hcq : c ≠ quote := fun hc => h (Or.inr hc)
      rw [backslashed_cons_neg h, List.cons_append, closeEscaped?, if_neg hcq, ih]
      · simp
      · exact fun he _ => hcb he
      · exact fun d ds he _ => hcb he

/-! ### Outer blanks -/

/-- A text with no blank at either end is trimmed to itself. -/
theorem trimBoth_eq_self {cs : List Char} (hfirst : ∀ c ∈ cs.head?, isBlank c = false)
    (hlast : ∀ c ∈ cs.getLast?, isBlank c = false) : trimBoth cs = cs := by
  have hdrop : ∀ ds : List Char, (∀ c ∈ ds.head?, isBlank c = false) →
      ds.dropWhile isBlank = ds := by
    intro ds hds
    cases ds with
    | nil => rfl
    | cons d ds =>
      rw [List.dropWhile_cons_of_neg]
      simp [hds d (by simp)]
  rw [trimBoth, trimStart, hdrop cs hfirst, trimEnd, hdrop cs.reverse, List.reverse_reverse]
  rw [List.head?_reverse]
  exact hlast

/-- A text that starts with no blank is not blank. -/
theorem trimBoth_ne_nil {c : Char} (hc : isBlank c = false) (cs : List Char) :
    trimBoth (c :: cs) ≠ [] := by
  have hstart : trimStart (c :: cs) = c :: cs := by
    rw [trimStart, List.dropWhile_cons_of_neg]
    simp [hc]
  rw [trimBoth, hstart, trimEnd]
  intro h
  have hall := List.dropWhile_eq_nil_iff.mp (List.reverse_eq_nil_iff.mp h) c (by simp)
  rw [hc] at hall
  cases hall

/-! ### The last occurrence of a character -/

theorem splitLast_append_cons {mark : Char} {after : List Char} (h : mark ∉ after)
    (before : List Char) : splitLast mark (before ++ mark :: after) = some (before, after) := by
  have hne : ∀ c ∈ after.reverse, (c != mark) = true := by
    intro c hc
    have hc' : c ≠ mark := fun he => h (he ▸ List.mem_reverse.mp hc)
    simp [hc']
  have hspan : (before ++ mark :: after).reverse.span (· != mark) =
      (after.reverse, mark :: before.reverse) := by
    rw [List.span_eq_takeWhile_dropWhile, List.reverse_append, List.reverse_cons,
      List.append_assoc, List.takeWhile_append_of_pos hne, List.dropWhile_append_of_pos hne]
    simp
  rw [splitLast, hspan]
  simp

/-! ### Texts in a row -/

theorem joinWith_eq_intercalate (separator : String) (ss : List String) :
    joinWith separator ss = separator.intercalate ss := by
  induction ss with
  | nil => simp
  | cons s ss ih =>
    cases ss with
    | nil => simp
    | cons t ss => rw [joinWith_cons_cons, ih, String.intercalate_cons_cons]

theorem toList_joinWith (separator : String) (ss : List String) :
    (joinWith separator ss).toList = separator.toList.intercalate (ss.map String.toList) := by
  rw [joinWith_eq_intercalate, String.toList_intercalate]

end Text
end RuleTree
