import RuleTree.Proofs.Lockstep
import RuleTree.Proofs.Quoting
import RuleTree.Sql.Bound

/-! # Conditions without placeholders

A `Draft` is a condition whose parameters have no placeholders yet: texts and
`Slot`s in a row, a slot for every parameter with its field and its value.
`Draft.fill` puts placeholders into the slots.  `draftWriter` writes a tree as a
draft, and knows nothing of how parameters are bound.

A condition of one comparison loses its outer blanks once the placeholder
stands.  No placeholder ends with a blank, so the blanks that are lost are those
before the field, and they may as well be dropped before
(`Skeleton.render_eq_fill`).
-/
namespace RuleTree

/-! ### Outer blanks -/

namespace Text

/-- A placeholder: it does not end with a blank. -/
def IsMark (s : String) : Prop := ∃ cs c, s.toList = cs ++ [c] ∧ isBlank c = false

theorem IsMark.ne_empty {s : String} (h : IsMark s) : s ≠ "" := by
  obtain ⟨cs, c, hs, -⟩ := h
  rintro rfl
  exact absurd hs (by simp)

theorem isMark_of_forall {s : String} (hne : s.toList ≠ [])
    (h : ∀ c ∈ s.toList, isBlank c = false) : IsMark s :=
  ⟨s.toList.dropLast, s.toList.getLast hne, (List.dropLast_append_getLast hne).symm,
    h _ (List.getLast_mem hne)⟩

theorem IsMark.append {t : String} (h : IsMark t) (s : String) : IsMark (s ++ t) := by
  obtain ⟨cs, c, ht, hblank⟩ := h
  exact ⟨s.toList ++ cs, c, by rw [String.toList_append, ht, List.append_assoc], hblank⟩

/-- Leading blanks are those of the first part that is not blank. -/
theorem trimStart_append {cs : List Char} (h : ∃ c ∈ cs, isBlank c = false) (ds : List Char) :
    trimStart (cs ++ ds) = trimStart cs ++ ds := by
  rw [trimStart, trimStart, List.dropWhile_append, if_neg]
  obtain ⟨c, hc, hblank⟩ := h
  rw [List.isEmpty_iff, List.dropWhile_eq_nil_iff]
  intro hall
  rw [hall c hc] at hblank
  cases hblank

/-- Blanks at the end are those of the last part that is not blank. -/
theorem trimEnd_append (cs : List Char) {ds : List Char} (h : ∃ c ∈ ds, isBlank c = false) :
    trimEnd (cs ++ ds) = cs ++ trimEnd ds := by
  obtain ⟨c, hc, hblank⟩ := h
  have hstart := trimStart_append ⟨c, List.mem_reverse.mpr hc, hblank⟩ cs.reverse
  rw [trimEnd, List.reverse_append]
  show (trimStart (ds.reverse ++ cs.reverse)).reverse = _
  rw [hstart, List.reverse_append, List.reverse_reverse]
  rfl

theorem trimEnd_append_singleton (cs : List Char) {c : Char} (h : isBlank c = false) :
    trimEnd (cs ++ [c]) = cs ++ [c] := by
  rw [trimEnd_append cs ⟨c, List.mem_singleton_self c, h⟩]
  simp [trimEnd, h]

/-- Texts that are not blank lose the leading blanks of the first and the last ones of the
second. -/
theorem trim_append_of_not_blank {s t : String} (hs : ∃ c ∈ s.toList, isBlank c = false)
    (ht : ∃ c ∈ t.toList, isBlank c = false) :
    trim (s ++ t) = String.ofList (trimStart s.toList) ++ String.ofList (trimEnd t.toList) := by
  rw [trim, trimBoth, String.toList_append, trimStart_append hs, trimEnd_append _ ht,
    String.ofList_append]

/-- A text and a placeholder lose the leading blanks of the text. -/
theorem trim_append {s mark : String} (hs : ∃ c ∈ s.toList, isBlank c = false)
    (hmark : IsMark mark) :
    trim (s ++ mark) = String.ofList (trimStart s.toList) ++ mark := by
  obtain ⟨cs, c, hc, hblank⟩ := hmark
  have hend : trimEnd mark.toList = mark.toList := by rw [hc, trimEnd_append_singleton _ hblank]
  rw [trim_append_of_not_blank hs ⟨c, by simp [hc], hblank⟩, hend, String.ofList_toList]

end Text

namespace Sql

/-- A parameter with the field that it belongs to. -/
structure Slot where
  field : String
  value : Value

/-- A part of a condition: a text, or a place for a parameter. -/
inductive Part where
  | text (s : String)
  | slot (slot : Slot)

/-- The part that a piece of a rule on a field is. -/
def Part.ofPiece (field : String) : Piece → Part
  | .text s => .text s
  | .param v => .slot ⟨field, v⟩

/-- A condition whose parameters have no placeholders yet. -/
abbrev Draft := List Part

namespace Draft

/-- The parameters, in order. -/
def slots : Draft → List Slot
  | [] => []
  | .text _ :: rest => slots rest
  | .slot slot :: rest => slot :: slots rest

/-- The text of a condition with the given placeholders. -/
def fill : Draft → List String → String
  | [], _ => ""
  | .text s :: rest, marks => s ++ fill rest marks
  | .slot _ :: rest, [] => fill rest []
  | .slot _ :: rest, mark :: marks => mark ++ fill rest marks

/-- Whether there is nothing in a condition, not even a parameter. -/
def isEmpty (d : Draft) : Bool :=
  d.all fun
    | .text s => s == ""
    | .slot _ => false

/-- Conditions with a separator between them. -/
def between (separator : String) : List Draft → Draft
  | [] => []
  | [d] => d
  | d :: e :: rest => d ++ .text separator :: between separator (e :: rest)

/-- The conditions of a group in parentheses, with the combinator between them. -/
def group (combinator : Value) (negated : Bool) (parts : List Draft) : Draft :=
  .text ((if negated then "NOT " else "") ++ "(") ::
    between (" " ++ combinator.display ++ " ") parts ++ [.text ")"]

@[simp] theorem slots_append (d e : Draft) : slots (d ++ e) = slots d ++ slots e := by
  induction d with
  | nil => rfl
  | cons part d ih => cases part <;> simp [slots, ih]

theorem slots_between (separator : String) (ds : List Draft) :
    slots (between separator ds) = ds.flatMap slots := by
  induction ds with
  | nil => rfl
  | cons d ds ih =>
    cases ds with
    | nil => simp [between]
    | cons e ds =>
      rw [between, slots_append, slots, ih]
      rfl

@[simp] theorem slots_group (combinator : Value) (negated : Bool) (ds : List Draft) :
    slots (group combinator negated ds) = ds.flatMap slots := by
  simp [group, slots, slots_between]

/-- Each part takes the placeholders of its own slots. -/
theorem fill_append {d : Draft} {marks : List String} (h : marks.length = d.slots.length)
    (e : Draft) (more : List String) :
    fill (d ++ e) (marks ++ more) = fill d marks ++ fill e more := by
  induction d generalizing marks with
  | nil =>
    obtain rfl := List.length_eq_zero_iff.mp h
    simp [fill]
  | cons part d ih =>
    cases part with
    | text s => simp only [List.cons_append, fill, ih h, String.append_assoc]
    | slot slot =>
      obtain ⟨mark, marks, rfl⟩ := List.exists_cons_of_length_pos (by rw [h]; simp [slots])
      have hmarks : marks.length = (slots d).length := by simpa [slots] using h
      simp only [List.cons_append, fill, ih hmarks, String.append_assoc]

/-- An empty condition has no parameters. -/
theorem slots_of_isEmpty {d : Draft} (h : d.isEmpty = true) : d.slots = [] := by
  induction d with
  | nil => rfl
  | cons part d ih =>
    obtain ⟨hpart, hrest⟩ := Bool.and_eq_true_iff.mp (List.all_cons.symm.trans h)
    cases part with
    | text => exact ih hrest
    | slot => cases hpart

/-- A condition is empty exactly if its text is. -/
theorem fill_eq_empty_iff {d : Draft} {marks : List String} (h : marks.length = d.slots.length)
    (hmarks : ∀ mark ∈ marks, mark ≠ "") : fill d marks = "" ↔ d.isEmpty = true := by
  induction d generalizing marks with
  | nil => simp [fill, isEmpty]
  | cons part d ih =>
    cases part with
    | text s =>
      rw [fill, String.append_eq_empty_iff, ih h hmarks]
      simp [isEmpty]
    | slot slot =>
      obtain ⟨mark, marks, rfl⟩ := List.exists_cons_of_length_pos (by rw [h]; simp [slots])
      simp [fill, isEmpty, hmarks mark List.mem_cons_self]

/-- The draft of the pieces of a rule on a field. -/
def ofPieces (field : String) (pieces : List Piece) : Draft := pieces.map (Part.ofPiece field)

theorem fill_ofPieces (field : String) (pieces : List Piece) (marks : List String) :
    fill (ofPieces field pieces) marks = Skeleton.fill pieces marks := by
  induction pieces generalizing marks with
  | nil => rfl
  | cons piece pieces ih =>
    cases piece with
    | text s => exact congrArg (s ++ ·) (ih marks)
    | param v =>
      cases marks with
      | nil => exact ih []
      | cons mark marks => exact congrArg (mark ++ ·) (ih marks)

/-- The parameters of the pieces of a rule on a field. -/
theorem slots_ofPieces (field : String) (c : Skeleton) :
    slots (ofPieces field c.pieces) = c.params.map (Slot.mk field) := by
  rw [Skeleton.params]
  induction c.pieces with
  | nil => rfl
  | cons piece pieces ih =>
    cases piece with
    | text s => exact ih
    | param v => exact congrArg (Slot.mk field v :: ·) ih

end Draft

/-! ### Rules -/

namespace Skeleton
open Text

/-- The pieces with the blanks dropped that are dropped from the text. -/
def settled (c : Skeleton) : List Piece :=
  if c.trimmed then
    match c.pieces with
    | [.text s] => [.text (trim s)]
    | .text s :: rest => .text (String.ofList (trimStart s.toList)) :: rest
    | pieces => pieces
  else c.pieces

/-- The pieces of a condition that loses outer blanks: a text alone, or one that is
not blank and a parameter. -/
inductive IsTrimmable : List Piece → Prop where
  | text (s : String) : IsTrimmable [.text s]
  | param {s : String} (v : Value) : (∃ c ∈ s.toList, isBlank c = false) →
      IsTrimmable [.text s, .param v]

theorem params_settled (c : Skeleton) (h : c.trimmed = true → IsTrimmable c.pieces) :
    (⟨c.settled, false⟩ : Skeleton).params = c.params := by
  obtain ⟨pieces, trimmed⟩ := c
  cases trimmed with
  | false => rfl
  | true =>
    obtain s | ⟨v, -⟩ := h rfl <;> rfl

/-- Placeholders do not end with blanks, so outer blanks may as well be dropped
before they stand. -/
theorem render_eq_fill {c : Skeleton} (h : c.trimmed = true → IsTrimmable c.pieces)
    {marks : List String} (hlength : marks.length = c.params.length)
    (hmarks : ∀ mark ∈ marks, IsMark mark) : c.render marks = fill c.settled marks := by
  obtain ⟨pieces, trimmed⟩ := c
  cases trimmed with
  | false => rfl
  | true =>
    obtain s | ⟨v, hs⟩ := h rfl
    · simp [render, settled, fill]
    · obtain ⟨mark, rest, rfl⟩ := List.exists_cons_of_length_pos (by rw [hlength]; simp [params])
      simp [render, settled, fill, trim_append hs (hmarks mark List.mem_cons_self)]

end Skeleton

/-- The spelling of an operator is not blank. -/
theorem sqlSpelling_not_blank (op : Operator) :
    ∃ c ∈ (Dialect.sqlSpelling op).toList, Text.isBlank c = false := by
  have hany : (Dialect.sqlSpelling op).toList.any (fun c => !Text.isBlank c) = true := by
    cases op <;> decide
  obtain ⟨c, hc, hblank⟩ := List.any_eq_true.mp hany
  exact ⟨c, hc, by simpa using hblank⟩

theorem isTrimmable_skeletonOf {style : Style} {op : Operator} {r : Rule} {written : Value} :
    (skeletonOf style op (Dialect.sqlSpelling op) r written).trimmed = true →
      Skeleton.IsTrimmable (skeletonOf style op (Dialect.sqlSpelling op) r written).pieces := by
  have hblank : ∃ c ∈ (fieldText style r.field ++ " " ++ Dialect.sqlSpelling op ++ " ").toList,
      Text.isBlank c = false := by
    obtain ⟨c, hc, hblank⟩ := sqlSpelling_not_blank op
    exact ⟨c, by simp [hc], hblank⟩
  unfold skeletonOf
  dsimp only
  split
  · exact fun h => by cases h
  · split
    · exact fun h => by cases h
    · split
      · exact fun _ => .text _
      · split
        · exact fun h => by cases h
        · split
          · exact fun h => by cases h
          · exact fun _ => .param _ hblank

/-- The writer of drafts. -/
def draftWriter : Writer Draft where
  dialect := .parameterized
  isEmpty := Draft.isEmpty
  write plan r _ := do return Draft.ofPieces r.field.display (← ruleSkeleton plan r).settled
  adopt _ := Misuse.wrongKind.fail
  combine combinator negated _ parts := return Draft.group combinator negated parts

end Sql
end RuleTree
