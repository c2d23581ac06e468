import Mathlib.Data.Bool.AllAny
import RuleTree.Proofs.LiteralPatterns

/-! # Patterns of texts

The pattern that is written for a text match is literal: its body is the escaped text, which
spells the text (`spells_escape`), between the anchors of the operator (`toList_ofText`).  So
it tells the same operator and the same text exactly if it is well escaped
(`read?_ofText_iff`).  That it is not where a line break is escaped, which a backslash does not
take in, nor where the text ends with a backslash, which hides the anchor behind it.
-/
namespace RuleTree
namespace Pattern

/-! ### Escaped texts -/

@[simp] theorem escape_nil : escape [] = [] := rfl

theorem escape_cons (c : Char) (cs : List Char) :
    escape (c :: cs) = escapeChar c ++ escape cs := rfl

theorem escape_cons_special {c : Char} (h : c ∈ specials) (cs : List Char) :
    escape (c :: cs) = '\\' :: c :: escape cs := by
  rw [escape_cons, escapeChar, if_pos (List.contains_iff_mem.mpr h)]
  rfl

theorem escape_cons_plain {c : Char} (h : c ∉ specials) (cs : List Char) :
    escape (c :: cs) = c :: escape cs := by
  rw [escape_cons, escapeChar, if_neg (mt List.contains_iff_mem.mp h)]
  rfl

/-- Everything that means more than itself is escaped. -/
theorem mem_specials_of_mem_metaCharacters {c : Char} (h : c ∈ metaCharacters) : c ∈ specials := by
  have hall : ∀ c ∈ metaCharacters, c ∈ specials := List.all_iff_forall_prop.mp (by decide)
  exact hall c h

/-- No letter and no digit is. -/
theorem isAlphanum_of_mem_specials {c : Char} (h : c ∈ specials) : c.isAlphanum = false := by
  have hall : ∀ c ∈ specials, c.isAlphanum = false := List.all_iff_forall_prop.mp (by decide)
  exact hall c h

/-- A text is what its escaped form spells. -/
theorem spells_escape (cs : List Char) : Spells Char.isAlphanum (escape cs) cs := by
  induction cs with
  | nil => exact .nil
  | cons c cs ih =>
    by_cases hc : c ∈ specials
    · rw [escape_cons_special hc]
      exact .escaped (isAlphanum_of_mem_specials hc) ih
    · have hbackslash : c ≠ '\\' := by
        rintro rfl
        exact hc (by decide)
      rw [escape_cons_plain hc]
      exact .plain (mt mem_specials_of_mem_metaCharacters hc) hbackslash ih

theorem wellEscaped_escape_iff_notMem (cs : List Char) :
    WellEscaped Char.isAlphanum (escape cs) ↔ '\n' ∉ cs := by
  rw [← (spells_escape cs).unescape_eq_iff]
  induction cs with
  | nil => simp [unescape]
  | cons c cs ih =>
    rw [List.mem_cons, not_or, ← ih]
    by_cases hc : c ∈ specials
    · rw [escape_cons_special hc, unescape]
      by_cases hbreak : c = '\n'
      · subst hbreak
        simp
      · simp [hbreak, Ne.symm hbreak]
    · have hbackslash : c ≠ '\\' := by
        rintro rfl
        exact hc (by decide)
      have hbreak : '\n' ≠ c := by
        rintro rfl
        exact hc (by decide)
      rw [escape_cons_plain hc, unescape_cons hbackslash]
      simp [hbreak]

/-- Escaped texts end as the texts do. -/
theorem getLast?_escape (cs : List Char) : (escape cs).getLast? = cs.getLast? := by
  rcases List.eq_nil_or_concat cs with rfl | ⟨init, c, rfl⟩
  · rfl
  · rw [List.concat_eq_append, List.getLast?_concat, escape, List.flatMap_append,
      List.flatMap_singleton, escapeChar]
    split
    · rw [List.getLast?_append]
      rfl
    · exact List.getLast?_concat

/-! ### Text matches -/

/-- The text match of an operator, negated or not. -/
def matchOf (op : Operator) : Operator := if op.isNegatedText then op.inverse else op

section
variable {op : Operator} (hop : op.isTextMatch = true)
include hop

theorem matchOf_eq : matchOf op = anchorOperator op.anchorsStart op.anchorsEnd := by
  cases op <;> cases hop <;> rfl

/-- The pattern of a text match is its escaped text between the anchors of the operator. -/
theorem toList_ofText (s : String) :
    (ofText op s).toList = anchored op.anchorsStart op.anchorsEnd (escape s.toList) := by
  rw [ofText, String.toList_ofList, anchored]
  cases op <;> cases hop
  all_goals simp [Operator.anchorsStart, Operator.anchorsEnd]

/-- A pattern tells the operator of its text match, negated or not, and its text exactly if the
text has no line break, and no backslash before the anchor of an end. -/
theorem read?_ofText_iff (s : String) :
    read? (ofText op s).toList = some (matchOf op, s.toList) ↔
      '\n' ∉ s.toList ∧ (op.anchorsEnd = true → s.toList.getLast? ≠ some '\\') := by
  have hspells := spells_escape s.toList
  rw [toList_ofText hop, matchOf_eq hop, hspells.read?_anchored_iff, hspells.wellEscaped_anchored,
    wellEscaped_escape_iff_notMem, getLast?_escape]

/-- It is read as a text match in any case. -/
theorem exists_read?_ofText (s : String) : ∃ operator text,
    read? (ofText op s).toList = some (operator, text) ∧ operator.isTextMatch = true := by
  rw [toList_ofText hop, (spells_escape s.toList).read?_anchored]
  cases op.anchorsEnd && (escape s.toList).getLast? == some '\\' with
  | true =>
    refine ⟨_, _, by rw [if_pos rfl], ?_⟩
    cases op.anchorsStart <;> rfl
  | false =>
    refine ⟨_, _, by rw [if_neg Bool.false_ne_true], ?_⟩
    cases op <;> cases hop <;> rfl

end

end Pattern
end RuleTree
