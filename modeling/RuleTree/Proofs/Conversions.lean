import RuleTree.Proofs.NumberShapes

/-! # From texts to numbers

The scanner of a policy accepts the words of its language and no others
(`NumberPolicy.accepts_iff_mem_shape`).  For the enhanced policy that takes two steps, one from the
language and one from the scanner, to the same spelling of a numeral with grouping marks
(`SpellsMarked`).  Every accepted text is converted, because what is left of it without its marks
spells a numeral to the end (`SpellsMarked.spells_filter`), and a complete numeral is one number
under all policies that convert: no mark stands in it, and the longest numeral behind its blanks
is all of it (`convert?_of_strict`).
-/

namespace RuleTree
open Text Numeral NumberShape
open scoped Computability

/-! ### Grouping marks -/

namespace NumberPolicy

/-- What is left when grouping marks are dropped. -/
def isKept (c : Char) : Bool := c != '_' && c != ','

/-- A whole part with grouping marks in it. -/
def IsMarked (whole : List Char) : Prop := isGrouped whole = true ∨ isUnderscored whole = true

section
variable {w : List Char}

theorem mem_triple : w ∈ digit * (digit * digit) ↔ isTriple w = true := by
  simp only [isTriple, Bool.and_eq_true, beq_iff_eq, List.all_eq_true, List.length_eq_three]
  constructor
  · intro h
    obtain ⟨a, _, rfl, ha, h⟩ := mem_one_mul.mp h
    obtain ⟨b, _, rfl, hb, c, hc, rfl⟩ := mem_one_mul.mp h
    exact ⟨⟨a, b, c, rfl⟩, by simp [ha, hb, hc]⟩
  · rintro ⟨⟨a, b, c, rfl⟩, hw⟩
    simp only [List.forall_mem_cons] at hw
    exact mem_one_mul.mpr ⟨a, _, rfl, hw.1, mem_one_mul.mpr ⟨b, _, rfl, hw.2.1, c, hw.2.2.1, rfl⟩⟩

theorem mem_firstGroup : w ∈ digit + digit * digit + digit * (digit * digit) ↔
    (1 ≤ w.length ∧ w.length ≤ 3) ∧ ∀ c ∈ w, isDigit c = true := by
  rw [Language.mem_add, Language.mem_add, mem_triple, digit, mem_one, mem_one_mul]
  rcases w with _ | ⟨a, _ | ⟨b, _ | ⟨c, _ | ⟨d, w⟩⟩⟩⟩ <;> simp [isTriple, mem_one]

theorem mem_underscored : w ∈ underscored ↔ isUnderscored w = true := by
  have hdigits : ∀ piece ∈ digits, ∀ c ∈ piece, (c == '_') = false := fun piece hpiece c hc =>
    beq_eq_false_iff_ne.mpr (ne_of_isDigit ((mem_digits.mp hpiece).2 c hc) (by decide))
  rw [underscored, mem_separated hdigits]
  simp [isUnderscored, mem_digits]

theorem isGrouped_iff : isGrouped w = true ↔
    ∃ first second rest, cutAt (fun c => c == '_' || c == ',') w = first :: second :: rest ∧
      ((1 ≤ first.length ∧ first.length ≤ 3) ∧ ∀ c ∈ first, isDigit c = true) ∧
        ∀ piece ∈ second :: rest, isTriple piece = true := by
  unfold isGrouped
  split
  · rename_i first second rest hcut
    simp [hcut, and_assoc]
  · rename_i hcut
    simp only [Bool.false_eq_true, false_iff]
    rintro ⟨first, second, rest, he, -⟩
    exact hcut first second rest he

theorem mem_grouped : w ∈ grouped ↔ isGrouped w = true := by
  have hmark {c : Char} (hc : isDigit c = true) : (c == '_' || c == ',') = false := by
    simp [ne_of_isDigit hc (show isDigit '_' = false by decide),
      ne_of_isDigit hc (show isDigit ',' = false by decide)]
  have htriple : ∀ piece ∈ digit * (digit * digit), ∀ c ∈ piece, (c == '_' || c == ',') = false := by
    intro piece hpiece c hc
    have hall := mem_triple.mp hpiece
    simp only [isTriple, Bool.and_eq_true, List.all_eq_true] at hall
    exact hmark (hall.2 c hc)
  rw [isGrouped_iff, grouped, Language.mem_mul]
  constructor
  · rintro ⟨first, hfirst, _, hrest, rfl⟩
    have hgroup := mem_firstGroup.mp hfirst
    obtain ⟨c, cs, rfl, hc, hcs⟩ := mem_one_mul.mp hrest
    have hpieces := (mem_separated htriple).mp hcs
    obtain ⟨second, rest, hcut, -⟩ := exists_cutAt (fun c => c == '_' || c == ',') cs
    refine ⟨first, second, rest, ?_, hgroup, fun piece hpiece => ?_⟩
    · rw [cutAt_append_mark hc fun d hd => hmark (hgroup.2 d hd), hcut]
    · exact mem_triple.mp (hpieces piece (hcut ▸ hpiece))
  · rintro ⟨first, second, rest, hcut, hfirst, hpieces⟩
    obtain ⟨piece, pieces, hcons, -, hw⟩ := exists_cutAt (fun c => c == '_' || c == ',') w
    obtain ⟨rfl, rfl⟩ := List.cons.inj (hcut.symm.trans hcons)
    obtain ⟨hnil, -⟩ | ⟨c, cs, hc, rfl, hcs⟩ := hw
    · exact absurd hnil (by simp)
    · refine ⟨first, mem_firstGroup.mpr hfirst, c :: cs, mem_one_mul.mpr ⟨c, cs, rfl, hc, ?_⟩, rfl⟩
      exact (mem_separated htriple).mpr fun q hq => mem_triple.mpr (hpieces q (hcs ▸ hq))

/-- Grouped digits are digits and marks, and a digit comes first. -/
theorem IsMarked.digits (h : IsMarked w) :
    (∀ c ∈ w, isDigit c = true ∨ isKept c = false) ∧ ∃ d ds, w = d :: ds ∧ isDigit d = true := by
  obtain ⟨p, hp, first, rest, hcut, hfirst, hne, hrest⟩ :
      ∃ p : Char → Bool, (∀ c, p c = true → isKept c = false) ∧ ∃ first rest,
        cutAt p w = first :: rest ∧ (∀ c ∈ first, isDigit c = true) ∧ first ≠ [] ∧
          ∀ piece ∈ rest, ∀ c ∈ piece, isDigit c = true := by
    rcases h with h | h
    · obtain ⟨first, second, rest, hcut, ⟨⟨hlength, -⟩, hdigits⟩, hpieces⟩ := isGrouped_iff.mp h
      refine ⟨_, fun c hc => ?_, first, second :: rest, hcut, hdigits,
        List.ne_nil_of_length_pos hlength, fun piece hpiece => ?_⟩
      · rcases Bool.or_eq_true .. ▸ hc with hc | hc <;> simp [isKept, beq_iff_eq.mp hc]
      · have := hpieces piece hpiece
        simp only [isTriple, Bool.and_eq_true, List.all_eq_true] at this
        exact this.2
    · obtain ⟨first, rest, hcut, -⟩ := exists_cutAt (· == '_') w
      simp only [isUnderscored, hcut, List.all_eq_true, Bool.and_eq_true, List.forall_mem_cons] at h
      refine ⟨_, fun c hc => ?_, first, rest, hcut, h.1.2, by simpa using h.1.1,
        fun piece hpiece => (h.2 piece hpiece).2⟩
      simp [isKept, beq_iff_eq.mp hc]
  constructor
  · intro c hc
    rcases mark_or_mem_of_cutAt (p := p) hc with hmark | ⟨piece, hpiece, hcp⟩
    · exact Or.inr (hp c hmark)
    · rcases List.mem_cons.mp (hcut ▸ hpiece) with rfl | hpiece
      · exact Or.inl (hfirst c hcp)
      · exact Or.inl (hrest piece hpiece c hcp)
  · obtain ⟨d, ds, rfl⟩ := List.exists_cons_of_ne_nil hne
    obtain ⟨piece, pieces, hcons, -, hw⟩ := exists_cutAt p w
    obtain ⟨rfl, rfl⟩ := List.cons.inj (hcut.symm.trans hcons)
    obtain ⟨-, rfl⟩ | ⟨mark, cs, -, rfl, -⟩ := hw
    · exact ⟨d, ds, rfl, hfirst d List.mem_cons_self⟩
    · exact ⟨d, _, rfl, hfirst d List.mem_cons_self⟩

/-- How a numeral with grouping marks in its whole part is spelled. -/
inductive SpellsMarked (x : Numeral) : List Char → Prop where
  | intro {sign whole exponent : List Char} (hsign : SpellsSign x.negative sign)
      (hwhole : whole = [] ∨ IsMarked whole) (hkept : whole.filter isKept = x.whole)
      (hdigits : IsDigital x.whole x.fraction) (hexponent : SpellsExponent x.exponent exponent) :
      SpellsMarked x (sign ++ (whole ++ (fractionText x.fraction ++ exponent)))

section
variable {x : Numeral} {sign whole exponent : List Char} {fraction : Option (List Char)}
  {power : Option (Bool × List Char)}

theorem filter_isKept (h : ∀ c ∈ w, isDigit c = true ∨ c ∈ marks) : w.filter isKept = w := by
  refine List.filter_eq_self.mpr fun c hc => ?_
  rcases h c hc with hdigit | hmark
  · simp [isKept, ne_of_isDigit hdigit (show isDigit '_' = false by decide),
      ne_of_isDigit hdigit (show isDigit ',' = false by decide)]
  · have hmarks : ∀ c ∈ marks, isKept c = true := List.all_iff_forall_prop.mp (by decide)
    exact hmarks c hmark

/-- Marked digits that are kept are digits, and there are some. -/
theorem IsMarked.filter_isKept (h : IsMarked w) :
    (∀ c ∈ w.filter isKept, isDigit c = true) ∧ w.filter isKept ≠ [] := by
  obtain ⟨hall, d, ds, rfl, hd⟩ := h.digits
  refine ⟨fun c hc => ?_, fun he => ?_⟩
  · obtain ⟨hmem, hkept⟩ := List.mem_filter.mp hc
    exact (hall c hmem).resolve_right (by simp [hkept])
  · have hkept := NumberPolicy.filter_isKept (w := [d]) (by simp [hd])
    rw [List.filter_cons_of_pos (by simpa using hkept)] at he
    simp at he

/-- Without its marks it is a numeral. -/
theorem SpellsMarked.spells_filter (h : SpellsMarked x w) : Spells x (w.filter isKept) := by
  obtain ⟨hsign, -, hkept, hdigits, hexponent⟩ := h
  rw [List.filter_append, List.filter_append, List.filter_append, hkept,
    NumberPolicy.filter_isKept fun c hc => Or.inr (hsign.mem_marks hc),
    NumberPolicy.filter_isKept fun c hc => hdigits.isDigit_or_mem hc,
    NumberPolicy.filter_isKept fun c hc => hexponent.isDigit_or_mem hc]
  exact .intro hsign hdigits hexponent

/-- What stands behind the sign is no sign, and starts a number as soon as there are digits. -/
theorem readSign_marked (hsign : SpellsSign x.negative sign) (hwhole : whole = [] ∨ IsMarked whole)
    (hexponent : SpellsExponent power exponent) :
    readSign (sign ++ (whole ++ (fractionText fraction ++ exponent))) =
      (x.negative, whole ++ (fractionText fraction ++ exponent)) := by
  refine hsign.readSign_append fun c hc => ?_
  rcases hwhole with rfl | hwhole
  · cases fraction with
    | some ds =>
      obtain rfl := Option.some.inj hc
      decide
    | none =>
      cases hexponent with
      | none => simp [fractionText] at hc
      | some hmark =>
        obtain rfl := Option.some.inj hc
        rcases hmark with rfl | rfl <;> decide
  · obtain ⟨-, d, ds, rfl, hd⟩ := hwhole.digits
    obtain rfl := Option.some.inj hc
    exact ⟨ne_of_isDigit hd (by decide), ne_of_isDigit hd (by decide)⟩

theorem startsNumber_marked (hwhole : whole = [] ∨ IsMarked whole)
    (hfraction : ∀ c ∈ fraction.getD [], isDigit c = true)
    (hexponent : SpellsExponent power exponent) :
    startsNumber (whole ++ (fractionText fraction ++ exponent)) = true ↔
      whole ≠ [] ∨ fraction.getD [] ≠ [] := by
  rcases hwhole with rfl | hwhole
  · cases fraction with
    | some ds =>
      cases ds with
      | nil =>
        cases hexponent with
        | none => simp [fractionText, startsNumber]; decide
        | some hmark => rcases hmark with rfl | rfl <;> simp [fractionText, startsNumber] <;> decide
      | cons d ds =>
        have hd : isDigit d = true := hfraction d (by simp)
        simp [fractionText, startsNumber, hd]
    | none =>
      cases hexponent with
      | none => simp [fractionText, startsNumber]
      | some hmark =>
        rcases hmark with rfl | rfl <;> simp [fractionText, startsNumber] <;> decide
  · obtain ⟨-, d, ds, rfl, hd⟩ := hwhole.digits
    have hpoint : d ≠ '.' := ne_of_isDigit hd (by decide)
    simp [startsNumber, hpoint, hd]

/-- The words of the grouped language that start a number. -/
theorem mem_both_marked : w ∈ both ahead marked ↔ ∃ x, SpellsMarked x w := by
  have hboth : w ∈ both ahead marked ↔ w ∈ ahead ∧ w ∈ marked := Iff.rfl
  rw [hboth, mem_ahead]
  constructor
  · rintro ⟨hstarts, h⟩
    obtain ⟨s, hs, _, hbody, rfl⟩ := Language.mem_mul.mp h
    obtain ⟨whole, hwhole, _, htail, rfl⟩ := Language.mem_mul.mp hbody
    obtain ⟨f, hf, e, he, rfl⟩ := Language.mem_mul.mp htail
    obtain ⟨negative, hsign⟩ := mem_sign.mp hs
    obtain ⟨power, hpower⟩ := mem_optional_exponent.mp he
    have hmarked : whole = [] ∨ IsMarked whole := by
      rw [mem_optional, Language.mem_add, mem_grouped, mem_underscored] at hwhole
      exact hwhole
    obtain ⟨fraction, rfl, hfraction⟩ : ∃ fraction, f = fractionText fraction ∧
        ∀ c ∈ fraction.getD [], isDigit c = true := by
      rcases mem_optional.mp hf with rfl | hf
      · exact ⟨none, rfl, by simp⟩
      · obtain ⟨ds, hds, rfl⟩ := mem_point_mul.mp hf
        exact ⟨some ds, rfl, mem_kstar_one.mp hds⟩
    rw [readSign_marked (x := ⟨negative, [], none, none⟩) hsign hmarked hpower,
      startsNumber_marked hmarked hfraction hpower] at hstarts
    refine ⟨⟨negative, whole.filter isKept, fraction, power⟩,
      .intro hsign hmarked rfl ⟨?_, hfraction, ?_⟩ hpower⟩
    · rcases hmarked with rfl | hmarked
      · simp
      · exact hmarked.filter_isKept.1
    · refine hstarts.imp (fun hne => ?_) id
      exact (hmarked.resolve_left hne).filter_isKept.2
  · rintro ⟨x, @⟨s, whole, e, hsign, hwhole, hkept, hdigits, hexponent⟩⟩
    constructor
    · rw [readSign_marked hsign hwhole hexponent,
        startsNumber_marked hwhole hdigits.isDigit_fraction hexponent]
      refine hdigits.nonempty.imp (fun hne he => hne ?_) id
      rw [← hkept, he, List.filter_nil]
    · refine Language.append_mem_mul (mem_sign.mpr ⟨_, hsign⟩) (Language.append_mem_mul ?_
        (Language.append_mem_mul ?_ (mem_optional_exponent.mpr ⟨_, hexponent⟩)))
      · rw [mem_optional, Language.mem_add, mem_grouped, mem_underscored]
        exact hwhole
      · cases hfraction : x.fraction with
        | none => exact mem_optional.mpr (Or.inl rfl)
        | some ds =>
          refine mem_optional.mpr (Or.inr (mem_point_mul.mpr ⟨ds, mem_kstar_one.mpr ?_, rfl⟩))
          exact fun c hc => hdigits.isDigit_fraction c (by rwa [hfraction])

/-! ### What the scanners accept -/

variable {cs : List Char}

theorem isStrict_iff :
    isStrict cs = true ↔ ∃ x, Spells x (trimBoth cs) ∧ x.fraction ≠ some [] := by
  unfold isStrict
  constructor
  · intro h
    split at h
    · rename_i x hread
      exact ⟨x, read?_eq_some_nil_iff.mp hread, by simpa [isComplete] using h⟩
    · exact absurd h Bool.false_ne_true
  · rintro ⟨x, hx, hcomplete⟩
    simpa [hx.read?, isComplete] using hcomplete

/-- The characters of a marked whole part. -/
def isInWhole (c : Char) : Bool := isDigit c || c == '_' || c == ','

theorem isInWhole_of_marked (hwhole : whole = [] ∨ IsMarked whole) :
    ∀ c ∈ whole, isInWhole c = true := by
  intro c hc
  rcases hwhole with rfl | hwhole
  · simp at hc
  · rcases hwhole.digits.1 c hc with hdigit | hmark
    · simp [isInWhole, hdigit]
    · simp only [isKept, Bool.and_eq_false_iff, bne_eq_false_iff_eq] at hmark
      rcases hmark with rfl | rfl <;> decide

/-- Behind the whole part comes the point, the exponent or the end. -/
theorem isInWhole_head?_tail (fraction : Option (List Char))
    (hexponent : SpellsExponent power exponent) :
    ∀ c ∈ (fractionText fraction ++ exponent).head?, isInWhole c = false := by
  intro c hc
  cases fraction with
  | some ds =>
    obtain rfl := Option.some.inj hc
    decide
  | none =>
    cases hexponent with
    | none => simp [fractionText] at hc
    | some hmark =>
      obtain rfl := Option.some.inj hc
      rcases hmark with rfl | rfl <;> decide

/-- The scan takes marks and digits up to the point, digits up to the exponent, and then the
exponent, which has to end the text. -/
theorem isEnhanced_iff : isEnhanced cs = true ↔ ∃ x, SpellsMarked x (trimBoth cs) := by
  have hfold : (fun c => isDigit c || c == '_' || c == ',') = isInWhole := rfl
  simp only [isEnhanced, hfold, Bool.and_eq_true, Bool.or_eq_true, List.isEmpty_iff, or_assoc]
  constructor
  · rintro ⟨⟨hstarts, hwhole⟩, hend⟩
    obtain ⟨s, hs, hsign⟩ := exists_spellsSign (trimBoth cs)
    generalize hbody : (readSign (trimBoth cs)).2 = body at *
    have hsplit := List.takeWhile_append_dropWhile (p := isInWhole) (l := body)
    obtain ⟨fraction, power, e, htail, hfraction, hpower⟩ : ∃ fraction power e,
        body.dropWhile isInWhole = fractionText fraction ++ e ∧
          (∀ c ∈ fraction.getD [], isDigit c = true) ∧ SpellsExponent power e := by
      split at hend
      · rename_i rest htail
        obtain ⟨e, he, hpower⟩ := exists_spellsExponent (rest.dropWhile isDigit)
        rw [hend, List.append_nil] at he
        refine ⟨some (rest.takeWhile isDigit), _, e, ?_, fun c hc => List.mem_takeWhile_imp hc,
          hpower⟩
        rw [htail, fractionText, List.cons_append, ← he, List.takeWhile_append_dropWhile]
      · obtain ⟨e, he, hpower⟩ := exists_spellsExponent (body.dropWhile isInWhole)
        rw [hend, List.append_nil] at he
        exact ⟨none, _, e, he, by simp, hpower⟩
    rw [htail] at hsplit
    rw [← hsplit, startsNumber_marked hwhole hfraction hpower] at hstarts
    rw [hs, ← hsplit]
    refine ⟨⟨_, _, fraction, power⟩, .intro hsign hwhole rfl ⟨?_, hfraction, ?_⟩ hpower⟩
    · rcases hwhole with hnil | hmarked
      · simp [hnil]
      · exact (IsMarked.filter_isKept hmarked).1
    · exact hstarts.imp (fun hne => (IsMarked.filter_isKept (hwhole.resolve_left hne)).2) id
  · rintro ⟨x, h⟩
    generalize trimBoth cs = w at h
    obtain @⟨s, whole, e, hsign, hwhole, hkept, hdigits, hexponent⟩ := h
    have hinside := isInWhole_of_marked hwhole
    have hafter := isInWhole_head?_tail x.fraction hexponent
    rw [readSign_marked hsign hwhole hexponent, takeWhile_append_of_head hinside hafter,
      dropWhile_append_of_head hinside hafter,
      startsNumber_marked hwhole hdigits.isDigit_fraction hexponent]
    have hnil : EndsHere [] := by simp [EndsHere]
    have hread := hexponent.readExponent_append hnil
    rw [List.append_nil] at hread
    have hne : whole ≠ [] ∨ x.fraction.getD [] ≠ [] :=
      hdigits.nonempty.imp (fun hne he => hne (by rw [← hkept, he, List.filter_nil])) id
    refine ⟨⟨hne, hwhole⟩, ?_⟩
    have hends := hexponent.endsDigits hnil
    rw [List.append_nil] at hends
    cases hfraction : x.fraction with
    | none =>
      simp only [fractionText, List.nil_append]
      split
      · exact absurd rfl (hends '.' (by simp)).2
      · rw [hread]
    | some ds =>
      have hds : ∀ c ∈ ds, isDigit c = true := fun c hc =>
        hdigits.isDigit_fraction c (by rwa [hfraction])
      simp only [fractionText, List.cons_append]
      rw [dropWhile_append_of_head hds fun c hc => (hends c hc).1, hread]

/-! ### The characters of a number with marks -/

theorem SpellsMarked.isBlank_eq_false {x : Numeral} (h : SpellsMarked x w) {c : Char} (hc : c ∈ w) :
    isBlank c = false := by
  by_cases hkept : isKept c = true
  · exact h.spells_filter.isBlank_eq_false (List.mem_filter.mpr ⟨hc, hkept⟩)
  · simp only [isKept, Bool.and_eq_true, bne_iff_ne, not_and_or, not_not] at hkept
    rcases hkept with rfl | rfl <;> decide

theorem SpellsMarked.ne_nil {x : Numeral} (h : SpellsMarked x w) : w ≠ [] := fun he =>
  h.spells_filter.ne_nil (by rw [he, List.filter_nil])

/-! ### Scanners and shapes -/

theorem mem_strict : cs ∈ NumberShape.strict ↔ isStrict cs = true := by
  have hwords (w : List Char) : w ∈ sign * (complete * NumberShape.optional NumberShape.exponent) ↔
      ∃ x, Spells x w ∧ x.fraction ≠ some [] :=
    mem_signed fun _ => mem_complete
  rw [NumberShape.strict, mem_blanks_around, hwords, isStrict_iff]
  intro w hw
  obtain ⟨x, hx, -⟩ := (hwords w).mp hw
  exact ⟨hx.ne_nil, fun c => hx.isBlank_eq_false⟩

theorem mem_enhanced : cs ∈ NumberShape.enhanced ↔ isEnhanced cs = true := by
  have htrim : both ahead (marked * blanks) = both ahead marked * blanks := by
    ext u
    constructor
    · rintro ⟨hahead, hu⟩
      obtain ⟨w, hw, after, hafter, rfl⟩ := Language.mem_mul.mp hu
      exact Language.append_mem_mul
        ⟨mem_ahead_of_append_blanks (mem_kstar_one.mp hafter) hahead, hw⟩ hafter
    · intro hu
      obtain ⟨w, ⟨hahead, hw⟩, after, hafter, rfl⟩ := Language.mem_mul.mp hu
      exact ⟨mem_ahead_append after hahead, Language.append_mem_mul hw hafter⟩
  rw [NumberShape.enhanced, htrim, mem_blanks_around, mem_both_marked, isEnhanced_iff]
  intro w hw
  obtain ⟨x, hx⟩ := mem_both_marked.mp hw
  exact ⟨hx.ne_nil, fun c => hx.isBlank_eq_false⟩

theorem mem_leading_mul : cs ∈ leading * ⊤ ↔ (leading? cs).isSome = true := by
  have hwords (w : List Char) : w ∈ sign * (pointed * NumberShape.optional NumberShape.exponent) ↔
      ∃ x, Spells x w := by
    simpa using mem_signed (P := fun _ => True) fun w => by simpa using mem_pointed
  rw [leading?, Option.isSome_map]
  constructor
  · intro h
    obtain ⟨u, hu, rest, -, rfl⟩ := Language.mem_mul.mp h
    obtain ⟨before, hbefore, w, hw, rfl⟩ := Language.mem_mul.mp hu
    obtain ⟨x, hx⟩ := (hwords w).mp hw
    rw [List.append_assoc, trimStart_append_blanks hx.ne_nil (fun _ => hx.isBlank_eq_false)
      (mem_kstar_one.mp hbefore), isSome_read?_iff_mem_ahead]
    exact mem_ahead_append rest (isSome_read?_iff_mem_ahead.mp (by simp [hx.read?]))
  · intro h
    obtain ⟨⟨x, rest⟩, hread⟩ := Option.isSome_iff_exists.mp h
    obtain ⟨lead, hlead, hx⟩ := exists_spells_of_read? hread
    obtain ⟨before, hcs, hbefore⟩ := exists_blanks_trimStart cs
    rw [hcs, hlead, ← List.append_assoc]
    exact Language.append_mem_mul (Language.append_mem_mul (mem_kstar_one.mpr hbefore)
      ((hwords lead).mpr ⟨x, hx⟩)) trivial

theorem accepts_iff_mem_shape (policy : NumberPolicy) :
    policy.accepts cs = true ↔ cs ∈ policy.shape := by
  cases policy with
  | never => simp [accepts, shape, Language.notMem_zero]
  | strict => exact mem_strict.symm
  | always => exact mem_leading_mul.symm
  | enhanced => rw [shape, Language.mem_add, mem_strict, mem_enhanced, accepts, Bool.or_eq_true]

/-! ### Conversions -/

theorem wholeNumeral?_of_spells {x : Numeral} (h : Spells x ((trimBoth cs).filter isKept)) :
    wholeNumeral? cs = some x := by
  have hread := h.read?
  unfold isKept at hread
  rw [wholeNumeral?, hread]

theorem filter_isKept_of_spells {x : Numeral} (h : Spells x w) : w.filter isKept = w :=
  filter_isKept fun _ hc => h.isDigit_or_mem hc

/-- The numeral behind the blanks is the whole of a text that one spells. -/
theorem leading?_of_spells {x : Numeral} (h : Spells x (trimBoth cs)) : leading? cs = some x := by
  obtain ⟨before, after, hcs, hbefore, hafter⟩ := exists_blanks_trimBoth cs
  have htrim : trimStart (before ++ (trimBoth cs ++ after)) = trimBoth cs ++ after :=
    trimStart_append_blanks h.ne_nil (fun _ => h.isBlank_eq_false) hbefore
  have hends : EndsHere after := by
    intro c hc
    have hblank := hafter c (List.mem_of_mem_head? hc)
    refine ⟨Bool.eq_false_iff.mpr fun hd => ?_, ?_, ?_, ?_⟩
    · exact Bool.false_ne_true ((isBlank_of_isDigit hd).symm.trans hblank)
    all_goals
      rintro rfl
      exact absurd hblank (by decide)
  rw [← hcs] at htrim
  rw [leading?, htrim, h.read?_append hends]
  rfl

/-- In every text that a policy takes for a number there is a numeral. -/
theorem isSome_numeral?_of_accepts {policy : NumberPolicy} (h : policy.accepts cs = true) :
    (policy.numeral? cs).isSome = true := by
  have hstrict (hs : isStrict cs = true) : (wholeNumeral? cs).isSome = true := by
    obtain ⟨x, hx, -⟩ := isStrict_iff.mp hs
    rw [wholeNumeral?_of_spells (by rwa [filter_isKept_of_spells hx])]
    rfl
  unfold numeral?
  rw [if_pos h]
  cases policy with
  | never => exact absurd h Bool.false_ne_true
  | strict => exact hstrict h
  | always => exact h
  | enhanced =>
    rcases Bool.or_eq_true .. ▸ h with hs | he
    · exact hstrict hs
    · obtain ⟨x, hx⟩ := isEnhanced_iff.mp he
      change (wholeNumeral? cs).isSome = true
      rw [wholeNumeral?_of_spells hx.spells_filter]
      rfl

/-- Every text that a policy takes for a number is converted. -/
theorem isSome_convert?_of_accepts {policy : NumberPolicy} (h : policy.accepts cs = true) :
    (policy.convert? cs).isSome = true :=
  (Option.isSome_map ..).trans (isSome_numeral?_of_accepts h)

/-- A complete numeral is the same number under every policy that converts. -/
theorem convert?_of_strict (h : isStrict cs = true) :
    ∃ n, ∀ policy : NumberPolicy, policy ≠ .never → policy.convert? cs = some n := by
  obtain ⟨x, hx, -⟩ := isStrict_iff.mp h
  have hwhole : wholeNumeral? cs = some x :=
    wholeNumeral?_of_spells (by rwa [filter_isKept_of_spells hx])
  have hleading := leading?_of_spells hx
  refine ⟨x.value, fun policy hpolicy => ?_⟩
  cases policy with
  | never => exact absurd rfl hpolicy
  | strict => simp [convert?, numeral?, accepts, h, hwhole]
  | always => simp [convert?, numeral?, accepts, hleading]
  | enhanced => simp [convert?, numeral?, accepts, h, hwhole]

end
end

/-- Number parsing is total and its policies extend each other.  A policy takes a text for a
number exactly if the text is of its shape; every text of the shape becomes a number, every other
one stays as it is, and nothing changes when the result is parsed again.  A text that is a number
under the strict policy is the same number under the enhanced one and under the one that takes
every leading number. -/
theorem withNumbers_by_shape (policy : NumberPolicy) (s : String) :
    (policy.accepts s.toList = true ↔ s.toList ∈ policy.shape) ∧
    (s.toList ∈ policy.shape ∧
        (∃ n, policy.convert? s.toList = some n ∧ (Value.text s).withNumbers policy = .ofNumber n) ∨
      s.toList ∉ policy.shape ∧ (Value.text s).withNumbers policy = .text s) ∧
    ((Value.text s).withNumbers policy).withNumbers policy = (Value.text s).withNumbers policy ∧
    (s.toList ∈ shape .strict →
      ∃ n, ∀ q ∈ [NumberPolicy.strict, .enhanced, .always],
        (Value.text s).withNumbers q = .ofNumber n) := by
  have hnone (hnot : s.toList ∉ policy.shape) : policy.convert? s.toList = none := by
    unfold convert? numeral?
    rw [if_neg (mt (accepts_iff_mem_shape policy).mp hnot)]
    rfl
  have hsome (hmem : s.toList ∈ policy.shape) : ∃ n, policy.convert? s.toList = some n :=
    Option.isSome_iff_exists.mp
      (isSome_convert?_of_accepts ((accepts_iff_mem_shape policy).mpr hmem))
  refine ⟨accepts_iff_mem_shape policy, ?_, ?_, fun hstrict => ?_⟩
  · by_cases hmem : s.toList ∈ policy.shape
    · obtain ⟨n, hn⟩ := hsome hmem
      exact Or.inl ⟨hmem, n, hn, by simp [Value.withNumbers, hn]⟩
    · exact Or.inr ⟨hmem, by simp [Value.withNumbers, hnone hmem]⟩
  · cases hn : policy.convert? s.toList with
    | none => simp [Value.withNumbers, hn]
    | some n => cases n <;> simp [Value.withNumbers, hn, Value.ofNumber]
  · obtain ⟨n, hn⟩ := convert?_of_strict (mem_strict.mp hstrict)
    refine ⟨n, fun q hq => ?_⟩
    have hconvert : q.convert? s.toList = some n := hn q (by rintro rfl; simp at hq)
    simp [Value.withNumbers, hconvert]

end NumberPolicy
end RuleTree
