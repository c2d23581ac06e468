import RuleTree.Proofs.StoredItems
import RuleTree.Text.Lowercase

/-! # Names once in lower case

A text that is trimmed and in lower case stays as it is when it is trimmed and put in lower
case again (`lower_trim_lower_trim`).  The table of capitals decides it: the small letters of
every run are outside all runs (`runs_settled`), so they are small themselves, and none of them
is a blank.
-/
namespace RuleTree
namespace Text

/-! ### The table of capitals -/

/-- Code points that no small letter of a run is: capitals outside the runs, blanks, and
what is no character. -/
def excluded : List (Nat × Nat) :=
  [(0, 32), (0x41, 0x5A), (0x80, 0xA0), (0x130, 0x130), (0x1680, 0x1680), (0x2000, 0x205F),
    (0x3000, 0x3000), (0xD800, 0xDFFF)]

namespace CapitalRun

/-- Whether a code point is one of the capitals. -/
def has (r : CapitalRun) (n : Nat) : Bool :=
  r.first ≤ n && n ≤ r.last && (n - r.first) % r.step == 0

/-- The code point of the small letter of a capital. -/
def small (r : CapitalRun) (n : Nat) : Nat := (n + r.shift).toNat

/-- Whether all small letters of the run lie outside a range. -/
def avoids (r : CapitalRun) (range : Nat × Nat) : Bool :=
  Nat.blt (r.small r.last) range.1 || Nat.blt range.2 (r.small r.first)

/-- Whether they lie between the capitals of a run that has every second code point. -/
def interleaves (r q : CapitalRun) : Bool :=
  (Nat.beq r.step 2 || Nat.beq r.first r.last) && Nat.beq q.step 2 &&
    Nat.beq ((r.small r.first + q.first) % 2) 1

/-- Whether the small letters of the run are no capitals of any run, and characters that are
no blanks. -/
def isSettled (r : CapitalRun) : Bool :=
  capitalRuns.toList.all (fun q => r.avoids (q.first, q.last) || r.interleaves q) &&
    (excluded.all r.avoids && Nat.blt (r.small r.last) 0x110000)

section
variable {r q : CapitalRun} {n : Nat}

theorem has_iff : r.has n = true ↔ r.first ≤ n ∧ n ≤ r.last ∧ (n - r.first) % r.step = 0 := by
  simp [has, and_assoc]

theorem small_lt_or_lt {range : Nat × Nat} (h : r.has n = true) (havoids : r.avoids range = true) :
    r.small n < range.1 ∨ range.2 < r.small n := by
  obtain ⟨hfirst, hlast, -⟩ := has_iff.mp h
  simp only [avoids, Bool.or_eq_true, Nat.blt_eq] at havoids
  unfold small at *
  omega

/-- What is settled of a run. -/
theorem isSettled_iff : r.isSettled = true ↔
    (∀ q ∈ capitalRuns.toList, r.avoids (q.first, q.last) = true ∨ r.interleaves q = true) ∧
      (∀ range ∈ excluded, r.avoids range = true) ∧ r.small r.last < 0x110000 := by
  rw [isSettled, Bool.and_eq_true, Bool.and_eq_true, List.all_eq_true, List.all_eq_true,
    Nat.blt_eq]
  simp only [Bool.or_eq_true]

/-- The small letters of a settled run are no capitals. -/
theorem has_small_eq_false (hr : r.isSettled = true) (h : r.has n = true)
    (hq : q ∈ capitalRuns.toList) : q.has (r.small n) = false := by
  obtain ⟨hruns, hexcluded, -⟩ := isSettled_iff.mp hr
  refine Bool.eq_false_iff.mpr fun hsmall => ?_
  obtain ⟨hfirst, hlast, hstep⟩ := has_iff.mp hsmall
  rcases hruns q hq with havoids | hbetween
  · have := small_lt_or_lt h havoids
    omega
  · obtain ⟨hfirst', hlast', hstep'⟩ := has_iff.mp h
    simp only [interleaves, Bool.and_eq_true, Bool.or_eq_true, Nat.beq_eq] at hbetween
    obtain ⟨⟨hsteps, htwo⟩, hodd⟩ := hbetween
    -- the first small letter is no negative number that is taken for zero
    have hpositive : 32 < r.small r.first := by
      simpa [avoids] using hexcluded (0, 32) (by simp [excluded])
    rw [htwo] at hstep
    unfold small at *
    rcases hsteps with hsteps | hsteps
    · rw [hsteps] at hstep'
      omega
    · omega

/-- The small letters of a settled run are characters, none of the excluded ones. -/
theorem toNat_small (hr : r.isSettled = true) (h : r.has n = true) :
    (Char.ofNat (r.small n)).toNat = r.small n ∧
      ∀ range ∈ excluded, r.small n < range.1 ∨ range.2 < r.small n := by
  obtain ⟨-, hexcluded, hmost⟩ := isSettled_iff.mp hr
  have havoids := fun range hrange => small_lt_or_lt h (hexcluded range hrange)
  refine ⟨?_, havoids⟩
  have hvalid : (r.small n).isValidChar := by
    have hsurrogate := havoids (0xD800, 0xDFFF) (by simp [excluded])
    obtain ⟨-, hlast, -⟩ := has_iff.mp h
    unfold small Nat.isValidChar at *
    omega
  rw [Char.ofNat, dif_pos hvalid]
  rfl

end
end CapitalRun

theorem runs_settled : ∀ r ∈ capitalRuns.toList, r.isSettled = true := by
  have hall : capitalRuns.toList.all CapitalRun.isSettled = true := by decide +kernel
  exact List.all_eq_true.mp hall

/-! ### Small letters -/

/-- A character that lower case leaves as it is. -/
structure IsSmall (c : Char) : Prop where
  not_dotted : c ≠ '\u0130'
  not_sigma : c ≠ '\u03A3'
  lowerChar_eq : lowerChar c = c

theorem isSmall_lowerChar_ascii : ∀ n < 128, lowerChar (Char.ofNat n) ≠ '\u0130' ∧
    lowerChar (Char.ofNat n) ≠ '\u03A3' ∧
    lowerChar (lowerChar (Char.ofNat n)) = lowerChar (Char.ofNat n) := by decide

theorem lowerChar_eq_self_ascii : ∀ n < 128, n < 0x41 ∨ 0x5A < n →
    lowerChar (Char.ofNat n) = Char.ofNat n := by decide

theorem isBlank_lowerChar_ascii : ∀ n < 128, isBlank (Char.ofNat n) = false →
    isBlank (lowerChar (Char.ofNat n)) = false := by decide

theorem exists_run_sigma : ∃ r ∈ capitalRuns.toList, r.has ('\u03A3').toNat = true := by
  decide +kernel

section
variable {c : Char}

/-- A character that is no ASCII one has a small letter of a run, or itself. -/
theorem lowerChar_cases (hascii : ¬c.toNat < 128) :
    (∃ r ∈ capitalRuns.toList, r.has c.toNat = true ∧
        lowerChar c = Char.ofNat (r.small c.toNat)) ∨
      (∀ r ∈ capitalRuns.toList, r.has c.toNat = false) ∧ lowerChar c = c := by
  cases hrun : capitalRuns.find? fun r => r.has c.toNat with
  | some r =>
    have heq : lowerChar c = Char.ofNat (r.small c.toNat) := by
      simp only [CapitalRun.has] at hrun
      rw [lowerChar, if_neg hascii, hrun]
      rfl
    rw [← Array.find?_toList] at hrun
    have hhas : r.has c.toNat = true := by simpa using List.find?_some hrun
    exact .inl ⟨r, List.mem_of_find?_eq_some hrun, hhas, heq⟩
  | none =>
    have heq : lowerChar c = c := by
      simp only [CapitalRun.has] at hrun
      rw [lowerChar, if_neg hascii, hrun]
    rw [← Array.find?_toList] at hrun
    exact .inr ⟨fun r hr => by simpa using List.find?_eq_none.mp hrun r hr, heq⟩

/-- What is no capital of a run is small. -/
theorem isSmall_of_has_eq_false (hdotted : c ≠ '\u0130') (hascii : ¬c.toNat < 128)
    (hruns : ∀ r ∈ capitalRuns.toList, r.has c.toNat = false) : IsSmall c := by
  refine ⟨hdotted, ?_, ?_⟩
  · rintro rfl
    obtain ⟨r, hr, hhas⟩ := exists_run_sigma
    rw [hruns r hr] at hhas
    cases hhas
  · rcases lowerChar_cases hascii with ⟨r, hr, hhas, -⟩ | ⟨-, heq⟩
    · rw [hruns r hr] at hhas
      cases hhas
    · exact heq

/-- Small letters are small. -/
theorem isSmall_lowerChar (h : c ≠ '\u0130') : IsSmall (lowerChar c) := by
  by_cases hascii : c.toNat < 128
  · have hsmall := isSmall_lowerChar_ascii c.toNat hascii
    rw [Char.ofNat_toNat] at hsmall
    exact ⟨hsmall.1, hsmall.2.1, hsmall.2.2⟩
  · rcases lowerChar_cases hascii with ⟨r, hr, hhas, heq⟩ | ⟨hruns, heq⟩
    · rw [heq]
      obtain ⟨htoNat, havoids⟩ := CapitalRun.toNat_small (runs_settled r hr) hhas
      have hdotted : Char.ofNat (r.small c.toNat) ≠ '\u0130' := by
        intro hdot
        have := havoids (0x130, 0x130) (by simp [excluded])
        rw [← htoNat, hdot] at this
        exact absurd this (by decide)
      by_cases hsmall : r.small c.toNat < 128
      · have hletter := havoids (0x41, 0x5A) (by simp [excluded])
        have hself := lowerChar_eq_self_ascii _ hsmall hletter
        have hascii := isSmall_lowerChar_ascii _ hsmall
        rw [hself] at hascii
        exact ⟨hdotted, hascii.2.1, hself⟩
      · refine isSmall_of_has_eq_false hdotted (by rwa [htoNat]) fun q hq => ?_
        rw [htoNat]
        exact CapitalRun.has_small_eq_false (runs_settled r hr) hhas hq
    · rw [heq]
      exact isSmall_of_has_eq_false h hascii hruns

/-- The small letter of what is no blank is none. -/
theorem isBlank_lowerChar (h : isBlank c = false) : isBlank (lowerChar c) = false := by
  by_cases hascii : c.toNat < 128
  · have hblank := isBlank_lowerChar_ascii c.toNat hascii
    rw [Char.ofNat_toNat] at hblank
    exact hblank h
  · rcases lowerChar_cases hascii with ⟨r, hr, hhas, heq⟩ | ⟨-, heq⟩
    · obtain ⟨htoNat, havoids⟩ := CapitalRun.toNat_small (runs_settled r hr) hhas
      simp only [excluded, List.forall_mem_cons] at havoids
      rw [heq, isBlank, htoNat]
      simp
      omega
    · rwa [heq]

end

/-! ### Lower case again -/

/-- What a character of a text becomes in lower case, given what is around it. -/
def lowered (before : List Char) (c : Char) (after : List Char) : List Char :=
  if c = '\u0130' then ['i', '\u0307']
  else if c = '\u03A3' then
    [if startsCased before && !startsCased after then '\u03C2' else '\u03C3']
  else [lowerChar c]

section
variable {before cs after : List Char} {c : Char}

theorem lowerFrom_cons :
    lowerFrom before (c :: cs) = lowered before c cs ++ lowerFrom (c :: before) cs := rfl

theorem lowered_ne_nil : lowered before c after ≠ [] := by
  unfold lowered
  split
  · simp
  · split <;> simp

theorem isSmall_of_mem_lowered {d : Char} (h : d ∈ lowered before c after) : IsSmall d := by
  unfold lowered at h
  split at h
  case isTrue =>
    rcases List.mem_pair.mp h with rfl | rfl
    · exact isSmall_lowerChar (c := 'I') (by decide)
    · exact ⟨by decide, by decide, by decide +kernel⟩
  case isFalse hdotted =>
    split at h
    · obtain rfl := List.mem_singleton.mp h
      split <;> exact ⟨by decide, by decide, by decide +kernel⟩
    · obtain rfl := List.mem_singleton.mp h
      exact isSmall_lowerChar hdotted

theorem isBlank_of_mem_lowered (hc : isBlank c = false) {d : Char}
    (h : d ∈ lowered before c after) : isBlank d = false := by
  unfold lowered at h
  split at h
  case isTrue => rcases List.mem_pair.mp h with rfl | rfl <;> decide
  case isFalse =>
    split at h
    · obtain rfl := List.mem_singleton.mp h
      split <;> decide
    · obtain rfl := List.mem_singleton.mp h
      exact isBlank_lowerChar hc

theorem isSmall_of_mem_lowerFrom {d : Char} (h : d ∈ lowerFrom before cs) : IsSmall d := by
  induction cs generalizing before with
  | nil => cases h
  | cons c cs ih =>
    rw [lowerFrom_cons, List.mem_append] at h
    exact h.elim isSmall_of_mem_lowered ih

/-- A text of small letters is in lower case. -/
theorem lowerFrom_eq_self (h : ∀ c ∈ cs, IsSmall c) : lowerFrom before cs = cs := by
  induction cs generalizing before with
  | nil => rfl
  | cons c cs ih =>
    obtain ⟨hc, hrest⟩ := List.forall_mem_cons.mp h
    rw [lowerFrom_cons, lowered, if_neg hc.not_dotted, if_neg hc.not_sigma, hc.lowerChar_eq,
      ih hrest]
    rfl

/-- Lower case starts with no blank where the text does not. -/
theorem isBlank_head?_lowerFrom (h : ∀ c ∈ cs.head?, isBlank c = false) :
    ∀ c ∈ (lowerFrom before cs).head?, isBlank c = false := by
  cases cs with
  | nil => simp [lowerFrom]
  | cons c cs =>
    intro d hd
    rw [lowerFrom_cons, List.head?_append_of_ne_nil _ lowered_ne_nil] at hd
    exact isBlank_of_mem_lowered (h c rfl) (List.mem_of_mem_head? hd)

/-- It ends with none where the text does not. -/
theorem isBlank_getLast?_lowerFrom (h : ∀ c ∈ cs.getLast?, isBlank c = false) :
    ∀ c ∈ (lowerFrom before cs).getLast?, isBlank c = false := by
  induction cs generalizing before with
  | nil => simp [lowerFrom]
  | cons c cs ih =>
    intro d hd
    rw [lowerFrom_cons] at hd
    cases cs with
    | nil =>
      rw [lowerFrom, List.append_nil] at hd
      exact isBlank_of_mem_lowered (h c rfl) (List.mem_of_mem_getLast? hd)
    | cons next cs =>
      have hne : lowerFrom (c :: before) (next :: cs) ≠ [] := by
        rw [lowerFrom_cons]
        simp [lowered_ne_nil]
      rw [List.getLast?_append_of_ne_nil _ hne] at hd
      exact ih (by simpa using h) d hd

end

/-- Trimming leaves no blank at either end. -/
theorem trimBoth_trimBoth (cs : List Char) : trimBoth (trimBoth cs) = trimBoth cs := by
  refine trimBoth_eq_self (fun c hc => ?_) fun c hc => ?_
  · -- what is taken off the end leaves the first character
    have hprefix : trimBoth cs <+: trimStart cs := by
      rw [trimBoth, trimEnd, ← List.reverse_suffix, List.reverse_reverse]
      exact List.dropWhile_suffix _
    obtain ⟨rest, hrest⟩ := hprefix
    have hhead := List.head?_dropWhile_not isBlank cs
    rw [show cs.dropWhile isBlank = trimBoth cs ++ rest from hrest.symm, List.head?_append, hc]
      at hhead
    exact hhead
  · have hhead := List.head?_dropWhile_not isBlank (trimStart cs).reverse
    rw [trimBoth, trimEnd, List.getLast?_reverse] at hc
    rw [hc] at hhead
    exact hhead

/-- **Lower case again.**  A trimmed text in lower case is trimmed and in lower case. -/
theorem lower_trim_lower_trim (s : String) : lower (trim (lower (trim s))) = lower (trim s) := by
  have htrimmed := trimBoth_trimBoth s.toList
  have hlower : trimBoth (lowerFrom [] (trimBoth s.toList)) = lowerFrom [] (trimBoth s.toList) :=
    trimBoth_eq_self (isBlank_head?_lowerFrom (isBlank_head?_of_trimBoth htrimmed))
      (isBlank_getLast?_lowerFrom (isBlank_getLast?_of_trimBoth htrimmed))
  simp only [lower, trim, String.toList_ofList, hlower]
  rw [lowerFrom_eq_self fun _ hc => isSmall_of_mem_lowerFrom hc]

end Text
end RuleTree
