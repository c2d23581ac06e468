import RuleTree.Proofs.Tokens

/-! # Names without quotes

The characters of names are ASCII letters, digits, underscores, points and dollar
signs (`isNameChar`), so names have no blanks and their case is folded letter by
letter.  A name ends where a character follows that is none of its own: as a
whole (`nameExtent?_append`), and as identifiers with points between them
(`IsDotted`, `dottedExtent?_append`).
-/
namespace RuleTree
namespace Source

/-! ### Characters -/

/-- An ASCII letter or an underscore. -/
def startsIdentifier (c : Char) : Bool := isLetter c || c = '_'

/-- An ASCII letter, a digit or an underscore. -/
def continuesIdentifier (c : Char) : Bool := startsIdentifier c || isAsciiDigit c

/-- The characters of names. -/
def isNameChar (c : Char) : Bool := continuesIdentifier c || c = '.' || c = '$'

theorem isNameChar_of_continues {c : Char} (h : continuesIdentifier c = true) :
    isNameChar c = true := by simp [isNameChar, h]

theorem continuesIdentifier_of_starts {c : Char} (h : startsIdentifier c = true) :
    continuesIdentifier c = true := by simp [continuesIdentifier, h]

theorem toNat_of_isNameChar {c : Char} (h : isNameChar c = true) :
    36 ≤ c.toNat ∧ c.toNat ≤ 122 := by
  simp only [isNameChar, continuesIdentifier, startsIdentifier, isLetter, isAsciiDigit,
    Bool.or_eq_true, Bool.and_eq_true, decide_eq_true_eq, Char.le_def, UInt32.le_iff_toNat_le] at h
  rcases h with (((((h | h) | h) | h) | h) | h)
  · exact ⟨Nat.le_trans (by decide) h.1, h.2⟩
  · exact ⟨Nat.le_trans (by decide) h.1, Nat.le_trans h.2 (by decide)⟩
  · subst h; decide
  · exact ⟨Nat.le_trans (by decide) h.1, Nat.le_trans h.2 (by decide)⟩
  · subst h; decide
  · subst h; decide

theorem isBlank_of_isNameChar {c : Char} (h : isNameChar c = true) : Text.isBlank c = false := by
  obtain ⟨h1, h2⟩ := toNat_of_isNameChar h
  simp only [Text.isBlank, Bool.or_eq_false_iff, Bool.and_eq_false_iff, decide_eq_false_iff_not,
    beq_eq_false_iff_ne]
  omega

theorem isSpace_of_isNameChar {c : Char} (h : isNameChar c = true) : isSpace c = false :=
  isSpace_eq_false (List.all_iff_forall_prop.mp (by decide)) h

/-- The case of a name is folded letter by letter. -/
theorem foldCase_of_isNameChar {c : Char} (h : isNameChar c = true) : foldCase c = c.toLower := by
  have hne : ∀ d : Char, 122 < d.toNat → c ≠ d := by
    rintro d hd rfl
    exact absurd (toNat_of_isNameChar h).2 (Nat.not_le_of_lt hd)
  rw [foldCase, if_neg (hne _ (by decide)), if_neg (hne _ (by decide)), if_neg]
  simp [hne '\u0131' (by decide), hne '\u0130' (by decide)]

theorem map_foldCase {w : List Char} (h : ∀ c ∈ w, isNameChar c = true) :
    w.map foldCase = w.map Char.toLower :=
  List.map_congr_left fun c hc => foldCase_of_isNameChar (h c hc)

/-- A name that is not empty has no blanks at its ends. -/
theorem trim_of_isNameChar {name : String} (h : ∀ c ∈ name.toList, isNameChar c = true) :
    Text.trim name = name := by
  rw [Text.trim, Text.trimBoth_eq_self, String.ofList_toList]
  · exact fun c hc => isBlank_of_isNameChar (h c (List.mem_of_mem_head? hc))
  · exact fun c hc => isBlank_of_isNameChar (h c (List.mem_of_mem_getLast? hc))

/-! ### Where names end -/

/-- No character of the class follows. -/
theorem Stops.not_continues {p : Char → Bool}
    (hp : ∀ c ∈ [' ', ',', ')', ']', '}', '('], p c = false) {rest : List Char}
    (h : Stops rest) : ∀ c ∈ rest.head?, p c = false := fun c hc => hp c (h c hc)

theorem takeWhile_append_of_stops {p : Char → Bool} {cs rest : List Char}
    (hcs : ∀ c ∈ cs, p c = true) (hrest : ∀ c ∈ rest.head?, p c = false) :
    (cs ++ rest).takeWhile p = cs := by
  rw [List.takeWhile_append_of_pos hcs]
  cases rest with
  | nil => simp
  | cons c rest => simp [hrest c (by simp)]

theorem nameExtent?_append {first rest : Char → Bool} {c : Char} {cs after : List Char}
    (hc : first c = true) (hcs : ∀ d ∈ cs, rest d = true)
    (hafter : ∀ d ∈ after.head?, rest d = false) :
    nameExtent? first rest c (cs ++ after) = some cs.length := by
  rw [nameExtent?, if_pos hc, takeWhile_append_of_stops hcs hafter]

/-! ### Identifiers with points between them -/

/-- A letter or an underscore, then letters, digits and underscores. -/
def IsIdentifier (w : List Char) : Prop :=
  ∃ c cs, w = c :: cs ∧ startsIdentifier c = true ∧ ∀ d ∈ cs, continuesIdentifier d = true

instance : DecidablePred IsIdentifier
  | [] => isFalse fun ⟨_, _, h, _⟩ => nomatch h
  | c :: cs => decidable_of_iff (startsIdentifier c && cs.all continuesIdentifier)
      (by simp [IsIdentifier])

/-- Identifiers with points between them. -/
inductive IsDotted : List Char → Prop where
  | identifier {w : List Char} : IsIdentifier w → IsDotted w
  | point {w rest : List Char} : IsIdentifier w → IsDotted rest → IsDotted (w ++ '.' :: rest)

theorem IsIdentifier.all {w : List Char} (h : IsIdentifier w) :
    ∀ c ∈ w, continuesIdentifier c = true := by
  obtain ⟨c, cs, rfl, hc, hcs⟩ := h
  exact List.forall_mem_cons.mpr ⟨continuesIdentifier_of_starts hc, hcs⟩

namespace IsDotted

theorem all {w : List Char} (h : IsDotted w) : ∀ c ∈ w, isNameChar c = true := by
  induction h with
  | identifier hw => exact fun c hc => isNameChar_of_continues (hw.all c hc)
  | point hw _ ih =>
    refine List.forall_mem_append.mpr ⟨fun c hc => isNameChar_of_continues (hw.all c hc), ?_⟩
    exact List.forall_mem_cons.mpr ⟨by decide, ih⟩

theorem exists_cons {w : List Char} (h : IsDotted w) :
    ∃ c cs, w = c :: cs ∧ startsIdentifier c = true := by
  induction h with
  | identifier hw =>
    obtain ⟨c, cs, rfl, hc, -⟩ := hw
    exact ⟨c, cs, rfl, hc⟩
  | point hw =>
    obtain ⟨c, cs, rfl, hc, -⟩ := hw
    exact ⟨c, _, rfl, hc⟩

/-- Dotted names start with no blank. -/
theorem starts {w : List Char} (h : IsDotted w) (rest : List Char) :
    ∃ c cs, w ++ rest = c :: cs ∧ Text.isBlank c = false := by
  obtain ⟨c, cs, rfl, -⟩ := h.exists_cons
  exact ⟨c, cs ++ rest, rfl, isBlank_of_isNameChar (h.all c List.mem_cons_self)⟩

/-- One more identifier behind a point. -/
theorem append {w part : List Char} (h : IsDotted w) (hpart : IsIdentifier part) :
    IsDotted (w ++ '.' :: part) := by
  induction h with
  | identifier hw => exact .point hw (.identifier hpart)
  | point hw _ ih =>
    rw [List.append_assoc, List.cons_append]
    exact .point hw ih

/-- Dotted names stand in lists as they are. -/
theorem listed {name : String} (h : IsDotted name.toList) :
    name ≠ "" ∧ Text.trim name = name := by
  refine ⟨?_, trim_of_isNameChar h.all⟩
  rintro rfl
  obtain ⟨c, cs, hname, -⟩ := h.exists_cons
  cases hname

end IsDotted

section
variable {first rest : Char → Bool}

theorem segmentsLength_append (hdot : rest '.' = false) {cs : List Char}
    (hcs : ∀ c ∈ cs, rest c = true) (tail : List Char) :
    segmentsLength first rest (cs ++ tail) = segmentsLength first rest tail + cs.length := by
  induction cs with
  | nil => rfl
  | cons c cs ih =>
    obtain ⟨hc, hcs⟩ := List.forall_mem_cons.mp hcs
    have hne : c ≠ '.' := by
      rintro rfl
      rw [hdot] at hc
      cases hc
    rw [List.cons_append, segmentsLength, if_pos hc, ih hcs, List.length_cons, Nat.add_assoc]
    exact fun _ _ he _ => hne he

theorem segmentsLength_of_stops {after : List Char}
    (h : ∀ c ∈ after.head?, rest c = false ∧ c ≠ '.') : segmentsLength first rest after = 0 := by
  cases after with
  | nil => rfl
  | cons c after =>
    obtain ⟨hc, hdot⟩ := h c (by simp)
    rw [segmentsLength]
    · simp [hc]
    · exact fun _ _ he _ => hdot he

/-- The longest dotted name at the start of a text is all of it, if nothing
follows that goes on with it. -/
theorem dottedExtent?_append (hfirst : ∀ c, startsIdentifier c = true → first c = true)
    (hrest : ∀ c, continuesIdentifier c = true → rest c = true) (hdot : rest '.' = false)
    {w after : List Char} (hw : IsDotted w)
    (hafter : ∀ c ∈ after.head?, rest c = false ∧ c ≠ '.') {c : Char} {cs : List Char}
    (h : w = c :: cs) : dottedExtent? first rest c (cs ++ after) = some cs.length := by
  suffices hlength : first c = true ∧ segmentsLength first rest (cs ++ after) = cs.length by
    rw [dottedExtent?, if_pos hlength.1, hlength.2]
  -- the part before a point ends there, and the rest is read as it stands alone
  induction hw generalizing c cs with
  | identifier hw =>
    obtain ⟨d, ds, rfl, hd, hds⟩ := hw
    obtain ⟨rfl, rfl⟩ := List.cons.inj h
    refine ⟨hfirst _ hd, ?_⟩
    rw [segmentsLength_append hdot fun c hc => hrest c (hds c hc),
      segmentsLength_of_stops hafter, Nat.zero_add]
  | point hw hrest' ih =>
    obtain ⟨d, ds, rfl, hd, hds⟩ := hw
    obtain ⟨e, es, rfl, -⟩ := hrest'.exists_cons
    obtain ⟨he, hes⟩ := ih rfl
    rw [List.cons_append] at h
    obtain ⟨rfl, rfl⟩ := List.cons.inj h
    refine ⟨hfirst _ hd, ?_⟩
    rw [List.append_assoc, segmentsLength_append hdot fun c hc => hrest c (hds c hc),
      List.cons_append, List.cons_append, segmentsLength, if_pos he, hes]
    rw [List.length_append, List.length_cons, List.length_cons]
    omega

end

end Source
end RuleTree
