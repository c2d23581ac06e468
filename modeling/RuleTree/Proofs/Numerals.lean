import RuleTree.Number.Policy
import RuleTree.Proofs.Integers

/-! # Numerals and their spelling

A numeral is spelled by a sign or none, the digits of its whole part, a point with the digits
after it and an exponent (`Numeral.Spells`).  Reading takes the longest numeral at the start of
a text: what is taken spells the numeral that is read (`exists_spells_of_read?`), and a spelled
numeral is read to its end unless what follows carries it on (`Spells.read?_append`).  Whether
there is a numeral at all is seen from the two characters behind the sign
(`isSome_read?_iff`).
-/
namespace RuleTree
open Text

/-! ### Digits and other characters -/

namespace Text

/-- What holds of the ten digits of every script holds of every digit. -/
theorem forall_isDigit {p : Char → Bool}
    (h : ∀ z ∈ digitZeros, ∀ i < 10, p (Char.ofNat (z + i)) = true) {c : Char}
    (hc : isDigit c = true) : p c = true := by
  obtain ⟨z, hz, hle, hlt⟩ := isDigit_iff.mp hc
  have hp := h z hz (c.toNat - z) (by omega)
  rwa [Nat.add_sub_cancel' hle, Char.ofNat_toNat] at hp

theorem isBlank_of_isDigit {c : Char} (h : isDigit c = true) : isBlank c = false := by
  simpa using forall_isDigit (p := fun c => !isBlank c) (by decide +kernel) h

theorem ne_of_isDigit {c d : Char} (h : isDigit c = true) (hd : isDigit d = false) : c ≠ d :=
  fun he => by rw [he, hd] at h; exact Bool.false_ne_true h

section
variable {p : Char → Bool} {ds rest : List Char}

/-- A run of one class ends where a character of another follows. -/
theorem takeWhile_append_of_head (hds : ∀ c ∈ ds, p c = true)
    (hrest : ∀ c ∈ rest.head?, p c = false) : (ds ++ rest).takeWhile p = ds := by
  have hnil : rest.takeWhile p = [] := by
    cases rest with
    | nil => rfl
    | cons c rest => simp [hrest c (by simp)]
  rw [List.takeWhile_append_of_pos hds, hnil, List.append_nil]

theorem dropWhile_append_of_head (hds : ∀ c ∈ ds, p c = true)
    (hrest : ∀ c ∈ rest.head?, p c = false) : (ds ++ rest).dropWhile p = rest := by
  have hself : rest.dropWhile p = rest := by
    cases rest with
    | nil => rfl
    | cons c rest => simp [hrest c (by simp)]
  rw [List.dropWhile_append_of_pos hds, hself]

end
end Text

namespace Numeral

/-! ### The parts of a spelling -/

/-- How a sign is spelled; true is minus, and plus may be left out. -/
inductive SpellsSign : Bool → List Char → Prop where
  | none : SpellsSign false []
  | plus : SpellsSign false ['+']
  | minus : SpellsSign true ['-']

/-- The point and the digits after it. -/
def fractionText : Option (List Char) → List Char
  | none => []
  | some ds => '.' :: ds

/-- How an exponent is spelled. -/
inductive SpellsExponent : Option (Bool × List Char) → List Char → Prop where
  | none : SpellsExponent none []
  | some {mark : Char} {negative : Bool} {sign ds : List Char} (hmark : mark = 'e' ∨ mark = 'E')
      (hsign : SpellsSign negative sign) (hne : ds ≠ []) (hds : ∀ c ∈ ds, isDigit c = true) :
      SpellsExponent (some (negative, ds)) (mark :: (sign ++ ds))

/-- Digits on both sides of the point, at least on one. -/
structure IsDigital (whole : List Char) (fraction : Option (List Char)) : Prop where
  isDigit_whole : ∀ c ∈ whole, isDigit c = true
  isDigit_fraction : ∀ c ∈ fraction.getD [], isDigit c = true
  nonempty : whole ≠ [] ∨ fraction.getD [] ≠ []

/-- How a numeral is spelled. -/
inductive Spells (x : Numeral) : List Char → Prop where
  | intro {sign exponent : List Char} (hsign : SpellsSign x.negative sign)
      (hdigits : IsDigital x.whole x.fraction) (hexponent : SpellsExponent x.exponent exponent) :
      Spells x (sign ++ (x.whole ++ (fractionText x.fraction ++ exponent)))

/-- What ends a row of digits that may still have an exponent behind it. -/
def EndsDigits (rest : List Char) : Prop := ∀ c ∈ rest.head?, isDigit c = false ∧ c ≠ '.'

section
variable {b : Bool} {cs rest sign exponent whole : List Char} {fraction : Option (List Char)}
  {power : Option (Bool × List Char)}

/-! ### Signs -/

theorem SpellsSign.readSign_append (h : SpellsSign b sign)
    (hrest : ∀ c ∈ rest.head?, c ≠ '+' ∧ c ≠ '-') : readSign (sign ++ rest) = (b, rest) := by
  cases h with
  | none =>
    cases rest with
    | nil => rfl
    | cons c rest =>
      obtain ⟨hplus, hminus⟩ := hrest c (by simp)
      rw [List.nil_append, readSign]
      · exact fun _ he => hplus (List.cons.inj he).1
      · exact fun _ he => hminus (List.cons.inj he).1
  | plus => rfl
  | minus => rfl

theorem exists_spellsSign (cs : List Char) :
    ∃ sign, cs = sign ++ (readSign cs).2 ∧ SpellsSign (readSign cs).1 sign := by
  unfold readSign
  split
  · exact ⟨['+'], rfl, .plus⟩
  · exact ⟨['-'], rfl, .minus⟩
  · exact ⟨[], rfl, .none⟩

/-! ### Exponents -/

theorem SpellsExponent.readExponent_append (h : SpellsExponent power exponent)
    (hrest : EndsHere rest) : readExponent (exponent ++ rest) = (power, rest) := by
  cases h with
  | none => exact readExponent_of_endsHere hrest
  | @some mark negative sign ds hmark hsign hne hds =>
    have hdigit : ∀ c ∈ rest.head?, isDigit c = false := fun c hc => (hrest c hc).1
    have hread : readSign (sign ++ (ds ++ rest)) = (negative, ds ++ rest) := by
      refine hsign.readSign_append fun c hc => ?_
      obtain ⟨d, ds, rfl⟩ := List.exists_cons_of_ne_nil hne
      obtain rfl : d = c := by simpa using hc
      have hd := hds d (by simp)
      exact ⟨ne_of_isDigit hd (by decide), ne_of_isDigit hd (by decide)⟩
    have hmark' : (mark == 'e' || mark == 'E') = true := by
      rcases hmark with rfl | rfl <;> rfl
    rw [List.cons_append, List.append_assoc, readExponent]
    simp [hmark', hread, takeWhile_append_of_head hds hdigit,
      dropWhile_append_of_head hds hdigit, hne]

theorem exists_spellsExponent (cs : List Char) :
    ∃ exponent, cs = exponent ++ (readExponent cs).2 ∧
      SpellsExponent (readExponent cs).1 exponent := by
  cases cs with
  | nil => exact ⟨[], rfl, .none⟩
  | cons c cs =>
    simp only [readExponent]
    split
    · rename_i hmark
      split
      · exact ⟨[], rfl, .none⟩
      · rename_i hne
        obtain ⟨sign, hcs, hsign⟩ := exists_spellsSign cs
        refine ⟨c :: (sign ++ (readSign cs).2.takeWhile isDigit), ?_, .some (by simpa using hmark)
          hsign (by simpa using hne) fun d hd => List.mem_takeWhile_imp hd⟩
        rw [List.cons_append, List.append_assoc, List.takeWhile_append_dropWhile, ← hcs]
    · exact ⟨[], rfl, .none⟩

/-- Behind digits an exponent is the only thing that carries a numeral on. -/
theorem SpellsExponent.endsDigits (h : SpellsExponent power exponent) (hrest : EndsHere rest) :
    EndsDigits (exponent ++ rest) := by
  intro c hc
  cases h with
  | none => exact ⟨(hrest c hc).1, (hrest c hc).2.1⟩
  | some hmark hsign hne hds =>
    obtain rfl := Option.some.inj hc
    rcases hmark with rfl | rfl <;> decide

/-! ### Digits and a point -/

theorem IsDigital.readDigits?_append (h : IsDigital whole fraction) (hrest : EndsDigits rest) :
    readDigits? (whole ++ (fractionText fraction ++ rest)) = some ((whole, fraction), rest) := by
  have hdigit : ∀ c ∈ rest.head?, isDigit c = false := fun c hc => (hrest c hc).1
  cases fraction with
  | none =>
    have hne : whole ≠ [] := h.nonempty.resolve_right (by simp)
    rw [fractionText, List.nil_append, readDigits?, takeWhile_append_of_head h.isDigit_whole hdigit,
      dropWhile_append_of_head h.isDigit_whole hdigit]
    split
    · exact absurd rfl (hrest '.' (by simp)).2
    · simp [hne]
  | some ds =>
    have hpoint : ∀ c ∈ (fractionText (some ds) ++ rest).head?, isDigit c = false := by
      intro c hc
      obtain rfl := Option.some.inj hc
      decide
    have hne : ¬(whole = [] ∧ ds = []) := fun he => h.nonempty.elim (· he.1) (· he.2)
    rw [readDigits?, takeWhile_append_of_head h.isDigit_whole hpoint,
      dropWhile_append_of_head h.isDigit_whole hpoint]
    have hds : ∀ c ∈ ds, isDigit c = true := h.isDigit_fraction
    simp [fractionText, takeWhile_append_of_head hds hdigit, dropWhile_append_of_head hds hdigit]
    exact fun he => fun hd => hne ⟨he, hd⟩

theorem isDigital_of_readDigits? (h : readDigits? cs = some ((whole, fraction), rest)) :
    cs = whole ++ (fractionText fraction ++ rest) ∧ IsDigital whole fraction := by
  have hcs := List.takeWhile_append_dropWhile (p := isDigit) (l := cs)
  have hwhole : ∀ c ∈ cs.takeWhile isDigit, isDigit c = true := fun c hc =>
    List.mem_takeWhile_imp hc
  simp only [readDigits?] at h
  split at h
  · rename_i after hafter
    split at h
    · simp at h
    · rename_i hne
      simp only [Option.some.injEq, Prod.mk.injEq] at h
      obtain ⟨⟨rfl, rfl⟩, rfl⟩ := h
      refine ⟨?_, hwhole, fun c hc => List.mem_takeWhile_imp hc, ?_⟩
      · rw [fractionText, List.cons_append, List.takeWhile_append_dropWhile, ← hafter, hcs]
      · simpa [Classical.or_iff_not_imp_left] using hne
  · split at h
    · simp at h
    · rename_i hne
      simp only [Option.some.injEq, Prod.mk.injEq] at h
      obtain ⟨⟨rfl, rfl⟩, rfl⟩ := h
      refine ⟨by rw [fractionText, List.nil_append, hcs], hwhole, by simp, Or.inl ?_⟩
      simpa using hne

/-! ### Whole numerals -/

variable {x : Numeral}

theorem Spells.read?_append (h : Spells x cs) (hrest : EndsHere rest) :
    read? (cs ++ rest) = some (x, rest) := by
  obtain @⟨sign, exponent, hsign, hdigits, hexponent⟩ := h
  have hsigned : readSign (sign ++ (x.whole ++ (fractionText x.fraction ++ (exponent ++ rest)))) =
      (x.negative, x.whole ++ (fractionText x.fraction ++ (exponent ++ rest))) := by
    refine hsign.readSign_append fun c hc => ?_
    cases hwhole : x.whole with
    | cons d ds =>
      obtain rfl : d = c := by simpa [hwhole] using hc
      have hd := hdigits.isDigit_whole d (by simp [hwhole])
      exact ⟨ne_of_isDigit hd (by decide), ne_of_isDigit hd (by decide)⟩
    | nil =>
      -- digits after a point are left, so the point comes first
      cases hfraction : x.fraction with
      | none => simpa [hwhole, hfraction] using hdigits.nonempty
      | some ds =>
        obtain rfl : '.' = c := by simpa [hwhole, hfraction, fractionText] using hc
        decide
  simp only [List.append_assoc, read?, hsigned,
    hdigits.readDigits?_append (hexponent.endsDigits hrest),
    hexponent.readExponent_append hrest, Option.map_some]

theorem Spells.read? (h : Spells x cs) : read? cs = some (x, []) := by
  have hread := h.read?_append (show EndsHere [] by simp [EndsHere])
  rwa [List.append_nil] at hread

theorem exists_spells_of_read? (h : Numeral.read? cs = some (x, rest)) :
    ∃ lead, cs = lead ++ rest ∧ Spells x lead := by
  obtain ⟨sign, hcs, hsign⟩ := exists_spellsSign cs
  simp only [Numeral.read?, Option.map_eq_some_iff] at h
  obtain ⟨⟨⟨whole, fraction⟩, mid⟩, hread, he⟩ := h
  obtain ⟨hmid, hdigits⟩ := isDigital_of_readDigits? hread
  obtain ⟨exponent, hexponent, hpower⟩ := exists_spellsExponent mid
  simp only [Prod.mk.injEq] at he
  obtain ⟨rfl, rfl⟩ := he
  refine ⟨_, ?_, .intro (x := ⟨_, whole, fraction, _⟩) hsign hdigits hpower⟩
  rw [List.append_assoc, List.append_assoc, List.append_assoc, ← hexponent, ← hmid, ← hcs]

/-- Reading to the end is spelling. -/
theorem read?_eq_some_nil_iff : Numeral.read? cs = some (x, []) ↔ Spells x cs := by
  constructor
  · intro h
    obtain ⟨lead, rfl, hlead⟩ := exists_spells_of_read? h
    rwa [List.append_nil]
  · exact Spells.read?

/-- There is a numeral where digits start, or a point with a digit behind it. -/
theorem isSome_read?_iff :
    (Numeral.read? cs).isSome = true ↔ NumberPolicy.startsNumber (readSign cs).2 = true := by
  rw [Numeral.read?, Option.isSome_map]
  generalize (readSign cs).2 = ds
  cases ds with
  | nil => simp [readDigits?, NumberPolicy.startsNumber]
  | cons c ds =>
    by_cases hpoint : c = '.'
    · subst hpoint
      cases ds with
      | nil => decide
      | cons d ds =>
        have hstop : isDigit '.' = false := by decide
        by_cases hd : isDigit d = true <;>
          simp [readDigits?, NumberPolicy.startsNumber, hstop, hd]
    · have hstarts : NumberPolicy.startsNumber (c :: ds) = isDigit c := by
        rw [NumberPolicy.startsNumber]
        exact fun _ _ he => absurd he hpoint
      rw [hstarts, readDigits?]
      by_cases hc : isDigit c = true
      · split <;> simp [hc]
      · have hdrop : (c :: ds).dropWhile isDigit = c :: ds := by simp [hc]
        rw [hdrop]
        split
        · rename_i he
          exact absurd (List.cons.inj he).1 hpoint
        · simp [hc]

/-! ### The characters of a numeral -/

/-- The characters of a numeral that are no digits. -/
def marks : List Char := ['+', '-', '.', 'e', 'E']

theorem SpellsSign.mem_marks (h : SpellsSign b sign) {c : Char} (hc : c ∈ sign) : c ∈ marks := by
  cases h with
  | none => simp at hc
  | plus => simp [marks, List.mem_singleton.mp hc]
  | minus => simp [marks, List.mem_singleton.mp hc]

theorem SpellsExponent.isDigit_or_mem (h : SpellsExponent power exponent) {c : Char}
    (hc : c ∈ exponent) : isDigit c = true ∨ c ∈ marks := by
  cases h with
  | none => simp at hc
  | some hmark hsign hne hds =>
    rcases List.mem_cons.mp hc with rfl | hc
    · rcases hmark with rfl | rfl <;> simp [marks]
    · exact (List.mem_append.mp hc).elim (fun hc => Or.inr (hsign.mem_marks hc))
        fun hc => Or.inl (hds c hc)

theorem IsDigital.isDigit_or_mem (h : IsDigital whole fraction) {c : Char}
    (hc : c ∈ fractionText fraction) : isDigit c = true ∨ c ∈ marks := by
  cases fraction with
  | none => simp [fractionText] at hc
  | some ds =>
    rcases List.mem_cons.mp hc with rfl | hc
    · exact Or.inr (by simp [marks])
    · exact Or.inl (h.isDigit_fraction c hc)

theorem Spells.isDigit_or_mem (h : Spells x cs) {c : Char} (hc : c ∈ cs) :
    isDigit c = true ∨ c ∈ marks := by
  obtain ⟨hsign, hdigits, hexponent⟩ := h
  rcases List.mem_append.mp hc with hc | hc
  · exact Or.inr (hsign.mem_marks hc)
  rcases List.mem_append.mp hc with hc | hc
  · exact Or.inl (hdigits.isDigit_whole c hc)
  rcases List.mem_append.mp hc with hc | hc
  · exact hdigits.isDigit_or_mem hc
  · exact hexponent.isDigit_or_mem hc

theorem Spells.isBlank_eq_false (h : Spells x cs) {c : Char} (hc : c ∈ cs) : isBlank c = false := by
  rcases h.isDigit_or_mem hc with hc | hc
  · exact isBlank_of_isDigit hc
  · have hmarks : ∀ c ∈ marks, isBlank c = false := List.all_iff_forall_prop.mp (by decide)
    exact hmarks c hc

theorem Spells.ne_nil (h : Spells x cs) : cs ≠ [] := fun he => by
  have hread := h.read?
  rw [he] at hread
  simp [Numeral.read?, readSign, readDigits?] at hread

end
end Numeral
end RuleTree
