import Mathlib.Computability.Language
import RuleTree.Value.Items
import RuleTree.Proofs.Numerals

/-! # The shapes of numbers

Which texts a policy takes for numbers is a regular language (`NumberPolicy.shape`) of signs,
digits, grouping marks, points, exponents and the blanks around them.  Words of these languages
are numerals as they are spelled: `mem_signed` puts a sign and an exponent around digits,
`mem_separated` cuts a word at its marks, and `mem_blanks_around` trims it.
-/
namespace RuleTree
open Text Numeral
open scoped Computability

/-! ### Blanks around a text -/

namespace Text

variable {cs : List Char}

theorem exists_blanks_trimStart (cs : List Char) :
    ∃ before, cs = before ++ trimStart cs ∧ ∀ c ∈ before, isBlank c = true :=
  ⟨cs.takeWhile isBlank, List.takeWhile_append_dropWhile.symm,
    fun _ hc => List.mem_takeWhile_imp hc⟩

theorem exists_blanks_trimBoth (cs : List Char) :
    ∃ before after, cs = before ++ (trimBoth cs ++ after) ∧ (∀ c ∈ before, isBlank c = true) ∧
      ∀ c ∈ after, isBlank c = true := by
  obtain ⟨before, hcs, hbefore⟩ := exists_blanks_trimStart cs
  obtain ⟨after, hafter, hblank⟩ := exists_blanks_trimStart (trimStart cs).reverse
  refine ⟨before, after.reverse, ?_, hbefore, fun c hc => hblank c (List.mem_reverse.mp hc)⟩
  rw [trimBoth, trimEnd, ← List.reverse_append]
  rwa [show (trimStart cs).reverse.dropWhile isBlank = trimStart (trimStart cs).reverse from rfl,
    ← hafter, List.reverse_reverse]

section
variable {before w after : List Char} (hne : w ≠ []) (hw : ∀ c ∈ w, isBlank c = false)
  (hbefore : ∀ c ∈ before, isBlank c = true) (hafter : ∀ c ∈ after, isBlank c = true)
include hne hw hbefore

theorem trimStart_append_blanks : trimStart (before ++ (w ++ after)) = w ++ after := by
  refine dropWhile_append_of_head hbefore fun c hc => ?_
  rw [List.head?_append_of_ne_nil _ hne] at hc
  exact hw c (List.mem_of_mem_head? hc)

include hafter

theorem trimBoth_append_blanks : trimBoth (before ++ (w ++ after)) = w := by
  rw [trimBoth, trimStart_append_blanks hne hw hbefore, trimEnd, List.reverse_append,
    dropWhile_append_of_head, List.reverse_reverse]
  · exact fun c hc => hafter c (List.mem_reverse.mp hc)
  · exact fun c hc => hw c (List.mem_reverse.mp (List.mem_of_mem_head? hc))

end

/-! ### Cutting at marks -/

section
variable {p : Char → Bool} {w piece : List Char} {pieces : List (List Char)}

theorem cutAt_cons_of_not {c : Char} (hc : p c = false) {cs : List Char}
    (hcs : cutAt p cs = piece :: pieces) : cutAt p (c :: cs) = (c :: piece) :: pieces := by
  simp [cutAt, hc, hcs]

theorem cutAt_of_forall_not (hw : ∀ c ∈ w, p c = false) : cutAt p w = [w] := by
  induction w with
  | nil => rfl
  | cons c w ih =>
    exact cutAt_cons_of_not (hw c List.mem_cons_self)
      (ih fun d hd => hw d (List.mem_cons_of_mem _ hd))

theorem cutAt_append_mark {mark : Char} (hmark : p mark = true) (hw : ∀ c ∈ w, p c = false)
    (cs : List Char) : cutAt p (w ++ mark :: cs) = w :: cutAt p cs := by
  induction w with
  | nil => simp [cutAt, hmark]
  | cons c w ih =>
    exact cutAt_cons_of_not (hw c List.mem_cons_self)
      (ih fun d hd => hw d (List.mem_cons_of_mem _ hd))

/-- The first piece is the whole text, or a mark follows it and the others are cut behind that. -/
theorem exists_cutAt (p : Char → Bool) (w : List Char) :
    ∃ piece pieces, cutAt p w = piece :: pieces ∧ (∀ c ∈ piece, p c = false) ∧
      (pieces = [] ∧ w = piece ∨
        ∃ mark cs, p mark = true ∧ w = piece ++ mark :: cs ∧ cutAt p cs = pieces) := by
  induction w with
  | nil => exact ⟨[], [], rfl, by simp, Or.inl ⟨rfl, rfl⟩⟩
  | cons c w ih =>
    obtain ⟨piece, pieces, hcut, hpiece, hrest⟩ := ih
    by_cases hc : p c = true
    · exact ⟨[], cutAt p w, by simp [cutAt, hc], by simp, Or.inr ⟨c, w, hc, rfl, rfl⟩⟩
    · rw [Bool.not_eq_true] at hc
      refine ⟨c :: piece, pieces, cutAt_cons_of_not hc hcut, ?_, ?_⟩
      · exact List.forall_mem_cons.mpr ⟨hc, hpiece⟩
      · rcases hrest with ⟨hpieces, hw⟩ | ⟨mark, cs, hmark, hw, hcs⟩
        · exact Or.inl ⟨hpieces, by rw [hw]⟩
        · exact Or.inr ⟨mark, cs, hmark, by rw [hw, List.cons_append], hcs⟩

theorem mark_or_mem_of_cutAt {c : Char} (hc : c ∈ w) : p c = true ∨ ∃ piece ∈ cutAt p w, c ∈ piece := by
  induction w with
  | nil => simp at hc
  | cons d w ih =>
    obtain ⟨piece, pieces, hcut, -, -⟩ := exists_cutAt p w
    by_cases hd : p d = true
    · rcases List.mem_cons.mp hc with rfl | hc
      · exact Or.inl hd
      · refine (ih hc).imp id fun ⟨q, hq, hcq⟩ => ⟨q, ?_, hcq⟩
        simpa [cutAt, hd] using Or.inr hq
    · rw [Bool.not_eq_true] at hd
      rw [cutAt_cons_of_not hd hcut]
      rcases List.mem_cons.mp hc with rfl | hc
      · exact Or.inr ⟨c :: piece, List.mem_cons_self, List.mem_cons_self⟩
      · rcases ih hc with hp | ⟨q, hq, hcq⟩
        · exact Or.inl hp
        · rcases List.mem_cons.mp (hcut ▸ hq) with rfl | hq
          · exact Or.inr ⟨d :: q, List.mem_cons_self, List.mem_cons_of_mem _ hcq⟩
          · exact Or.inr ⟨q, List.mem_cons_of_mem _ hq, hcq⟩

end
end Text

/-! ### The languages -/

namespace NumberShape

/-- One character of a class. -/
def one (p : Char → Bool) : Language Char := {w | ∃ c, p c = true ∧ w = [c]}

/-- A word of the language or nothing. -/
def optional (L : Language Char) : Language Char := 1 + L

/-- The words of both languages. -/
def both (L M : Language Char) : Language Char := {w | w ∈ L ∧ w ∈ M}

/-- Words with a mark between them. -/
def separated (mark : Char → Bool) (L : Language Char) : Language Char := L * (one mark * L)∗

def blanks : Language Char := (one isBlank)∗

def sign : Language Char := optional (one fun c => c == '+' || c == '-')

def digit : Language Char := one isDigit

def digits : Language Char := digit * digit∗

def point : Language Char := one (· == '.')

def exponent : Language Char := one (fun c => c == 'e' || c == 'E') * (sign * digits)

/-- Digits with a point, behind which stand digits of a language; in front of it they may be
missing. -/
def decimal (L : Language Char) : Language Char := digits * optional (point * L) + point * digits

/-- Digits on the right of every point. -/
def complete : Language Char := decimal digits

/-- Digits that may end at their point. -/
def pointed : Language Char := digits * (optional point * digit∗) + point * digits

/-- A first group of one to three digits and more of three, a mark before each of these. -/
def grouped : Language Char :=
  (digit + digit * digit + digit * (digit * digit)) *
    (one (fun c => c == '_' || c == ',') *
      separated (fun c => c == '_' || c == ',') (digit * (digit * digit)))

/-- Digits with single underscores between them. -/
def underscored : Language Char := separated (· == '_') digits

/-- A number as it stands in a source. -/
def numeral : Language Char := sign * (decimal digit∗ * optional exponent)

/-- A text that starts with a number, which is looked at ahead of the scan. -/
def ahead : Language Char := sign * (optional point * (digit * ⊤))

/-- A numeral with grouping marks in its whole part. -/
def marked : Language Char :=
  sign * (optional (grouped + underscored) * (optional (point * digit∗) * optional exponent))

/-- A complete numeral with blanks around it. -/
def strict : Language Char := blanks * (sign * (complete * optional exponent) * blanks)

/-- A numeral with grouping marks and blanks around it. -/
def enhanced : Language Char := blanks * both ahead (marked * blanks)

/-- A numeral behind blanks, which a text may start with. -/
def leading : Language Char := blanks * (sign * (pointed * optional exponent))

end NumberShape

/-- The texts that a policy takes for numbers. -/
def NumberPolicy.shape : NumberPolicy → Language Char
  | .never => 0
  | .strict => NumberShape.strict
  | .always => NumberShape.leading * ⊤
  | .enhanced => NumberShape.strict + NumberShape.enhanced

namespace NumberShape

/-! ### Words of the languages -/

section
variable {p mark : Char → Bool} {L body : Language Char} {w : List Char}

theorem mem_one : w ∈ one p ↔ ∃ c, p c = true ∧ w = [c] := Iff.rfl

theorem mem_optional : w ∈ optional L ↔ w = [] ∨ w ∈ L := by
  rw [optional, Language.mem_add, Language.mem_one]

theorem mem_kstar_one : w ∈ (one p)∗ ↔ ∀ c ∈ w, p c = true := by
  constructor
  · intro h c hc
    obtain ⟨words, rfl, hwords⟩ := Language.mem_kstar.mp h
    obtain ⟨word, hword, hcw⟩ := List.mem_flatten.mp hc
    obtain ⟨d, hd, rfl⟩ := hwords word hword
    rwa [List.mem_singleton.mp hcw]
  · intro h
    refine Language.mem_kstar.mpr ⟨w.map fun c => [c], by simp [← List.flatMap_def], ?_⟩
    intro word hword
    obtain ⟨c, hc, rfl⟩ := List.mem_map.mp hword
    exact ⟨c, h c hc, rfl⟩

theorem mem_one_mul : w ∈ one p * L ↔ ∃ c cs, w = c :: cs ∧ p c = true ∧ cs ∈ L := by
  rw [Language.mem_mul]
  constructor
  · rintro ⟨_, ⟨c, hc, rfl⟩, cs, hcs, rfl⟩
    exact ⟨c, cs, rfl, hc, hcs⟩
  · rintro ⟨c, cs, rfl, hc, hcs⟩
    exact ⟨[c], ⟨c, hc, rfl⟩, cs, hcs, rfl⟩

theorem mem_digits : w ∈ digits ↔ w ≠ [] ∧ ∀ c ∈ w, isDigit c = true := by
  rw [digits, digit, mem_one_mul]
  constructor
  · rintro ⟨c, cs, rfl, hc, hcs⟩
    exact ⟨by simp, List.forall_mem_cons.mpr ⟨hc, mem_kstar_one.mp hcs⟩⟩
  · rintro ⟨hne, hw⟩
    obtain ⟨c, cs, rfl⟩ := List.exists_cons_of_ne_nil hne
    obtain ⟨hc, hcs⟩ := List.forall_mem_cons.mp hw
    exact ⟨c, cs, rfl, hc, mem_kstar_one.mpr hcs⟩

/-- The pieces of a word with marks are what stands between them. -/
theorem mem_separated (hL : ∀ piece ∈ L, ∀ c ∈ piece, mark c = false) :
    w ∈ separated mark L ↔ ∀ piece ∈ cutAt mark w, piece ∈ L := by
  constructor
  · rw [separated, Language.mem_mul]
    rintro ⟨first, hfirst, _, hrest, rfl⟩
    obtain ⟨words, rfl, hwords⟩ := Language.mem_kstar.mp hrest
    clear hrest
    induction words generalizing first with
    | nil => simpa [cutAt_of_forall_not (hL first hfirst)] using hfirst
    | cons word words ih =>
      obtain ⟨hword, hrest⟩ := List.forall_mem_cons.mp hwords
      obtain ⟨c, second, rfl, hc, hsecond⟩ := mem_one_mul.mp hword
      rw [List.flatten_cons, List.cons_append, cutAt_append_mark hc (hL first hfirst)]
      exact List.forall_mem_cons.mpr ⟨hfirst, ih second hsecond hrest⟩
  · intro h
    suffices hall : ∀ pieces, cutAt mark w = pieces → (∀ piece ∈ pieces, piece ∈ L) →
        w ∈ separated mark L from hall _ rfl h
    intro pieces
    induction pieces generalizing w with
    | nil =>
      intro hcut
      obtain ⟨piece, pieces, hcons, -⟩ := exists_cutAt mark w
      simp [hcut] at hcons
    | cons first rest ih =>
      intro hcut hpieces
      obtain ⟨hfirst, hrest⟩ := List.forall_mem_cons.mp hpieces
      obtain ⟨piece, pieces, hcons, -, hw⟩ := exists_cutAt mark w
      obtain ⟨rfl, rfl⟩ := List.cons.inj (hcut.symm.trans hcons)
      rw [separated]
      rcases hw with ⟨-, rfl⟩ | ⟨c, cs, hc, rfl, hcs⟩
      · exact Language.mem_mul.mpr ⟨w, hfirst, [], Language.nil_mem_kstar _, by simp⟩
      · refine Language.append_mem_mul hfirst ?_
        obtain ⟨second, hsecond, _, htail, rfl⟩ :=
          Language.mem_mul.mp (ih (by rwa [hcs]) hcs hrest)
        rw [← Language.one_add_self_mul_kstar_eq_kstar, Language.mem_add, ← List.cons_append]
        exact Or.inr (Language.append_mem_mul (mem_one_mul.mpr ⟨c, second, rfl, hc, hsecond⟩) htail)

/-- A text with blanks around it is a word once it is trimmed. -/
theorem mem_blanks_around (hL : ∀ w ∈ L, w ≠ [] ∧ ∀ c ∈ w, isBlank c = false) {cs : List Char} :
    cs ∈ blanks * (L * blanks) ↔ trimBoth cs ∈ L := by
  constructor
  · intro h
    obtain ⟨before, hbefore, _, hrest, rfl⟩ := Language.mem_mul.mp h
    obtain ⟨w, hw, after, hafter, rfl⟩ := Language.mem_mul.mp hrest
    obtain ⟨hne, hnot⟩ := hL w hw
    rwa [trimBoth_append_blanks hne hnot (mem_kstar_one.mp hbefore) (mem_kstar_one.mp hafter)]
  · intro h
    obtain ⟨before, after, hcs, hbefore, hafter⟩ := exists_blanks_trimBoth cs
    rw [hcs]
    exact Language.append_mem_mul (mem_kstar_one.mpr hbefore)
      (Language.append_mem_mul h (mem_kstar_one.mpr hafter))

/-! ### Numerals as words -/

theorem mem_sign : w ∈ sign ↔ ∃ negative, SpellsSign negative w := by
  rw [sign, mem_optional, mem_one]
  constructor
  · rintro (rfl | ⟨c, hc, rfl⟩)
    · exact ⟨false, .none⟩
    · rcases Bool.or_eq_true .. ▸ hc with hc | hc
      · exact ⟨false, (beq_iff_eq.mp hc) ▸ .plus⟩
      · exact ⟨true, (beq_iff_eq.mp hc) ▸ .minus⟩
  · rintro ⟨negative, hsign⟩
    cases hsign with
    | none => exact Or.inl rfl
    | plus => exact Or.inr ⟨'+', rfl, rfl⟩
    | minus => exact Or.inr ⟨'-', rfl, rfl⟩

theorem mem_optional_exponent :
    w ∈ optional exponent ↔ ∃ power, SpellsExponent power w := by
  rw [mem_optional, exponent, mem_one_mul]
  constructor
  · rintro (rfl | ⟨mark, cs, rfl, hmark, hcs⟩)
    · exact ⟨none, .none⟩
    · obtain ⟨s, hs, ds, hds, rfl⟩ := Language.mem_mul.mp hcs
      obtain ⟨negative, hsign⟩ := mem_sign.mp hs
      obtain ⟨hne, hdigits⟩ := mem_digits.mp hds
      exact ⟨some (negative, ds), .some (by simpa using hmark) hsign hne hdigits⟩
  · rintro ⟨power, hpower⟩
    cases hpower with
    | none => exact Or.inl rfl
    | some hmark hsign hne hds =>
      exact Or.inr ⟨_, _, rfl, by simpa using hmark,
        Language.append_mem_mul (mem_sign.mpr ⟨_, hsign⟩) (mem_digits.mpr ⟨hne, hds⟩)⟩

theorem mem_point_mul : w ∈ point * L ↔ ∃ ds ∈ L, w = '.' :: ds := by
  rw [point, mem_one_mul]
  constructor
  · rintro ⟨c, cs, rfl, hc, hcs⟩
    exact ⟨cs, hcs, by rw [beq_iff_eq.mp hc]⟩
  · rintro ⟨ds, hds, rfl⟩
    exact ⟨'.', ds, rfl, rfl, hds⟩

/-- Digits on both sides of the point, or on one. -/
theorem mem_decimal (hdigits : ∀ ds ∈ digits, ds ∈ L)
    (hL : ∀ ds ∈ L, ∀ c ∈ ds, isDigit c = true) : w ∈ decimal L ↔
      ∃ whole fraction, IsDigital whole fraction ∧ (∀ ds, fraction = some ds → ds ∈ L) ∧
        w = whole ++ fractionText fraction := by
  rw [decimal, Language.mem_add, Language.mem_mul, mem_point_mul]
  constructor
  · rintro (⟨whole, hwhole, f, hf, rfl⟩ | ⟨ds, hds, rfl⟩)
    · obtain ⟨hne, hall⟩ := mem_digits.mp hwhole
      rcases mem_optional.mp hf with rfl | hf
      · exact ⟨whole, none, ⟨hall, by simp, Or.inl hne⟩, by simp, rfl⟩
      · obtain ⟨ds, hds, rfl⟩ := mem_point_mul.mp hf
        exact ⟨whole, some ds, ⟨hall, hL ds hds, Or.inl hne⟩, by simpa using hds, rfl⟩
    · obtain ⟨hne, hall⟩ := mem_digits.mp hds
      exact ⟨[], some ds, ⟨by simp, hall, Or.inr hne⟩, by simpa using hdigits ds hds, rfl⟩
  · rintro ⟨whole, fraction, hdigital, hfraction, rfl⟩
    by_cases hne : whole = []
    · obtain ⟨ds, rfl⟩ : ∃ ds, fraction = some ds := by
        cases fraction with
        | none => exact absurd hne (hdigital.nonempty.resolve_right (by simp))
        | some ds => exact ⟨ds, rfl⟩
      refine Or.inr ⟨ds, mem_digits.mpr ⟨?_, hdigital.isDigit_fraction⟩, by rw [hne]; rfl⟩
      exact hdigital.nonempty.resolve_left (by simp [hne])
    · refine Or.inl ⟨whole, mem_digits.mpr ⟨hne, hdigital.isDigit_whole⟩, _, ?_, rfl⟩
      cases fraction with
      | none => exact mem_optional.mpr (Or.inl rfl)
      | some ds =>
        exact mem_optional.mpr (Or.inr (mem_point_mul.mpr ⟨ds, hfraction ds rfl, rfl⟩))

theorem mem_complete : w ∈ complete ↔
    ∃ whole fraction, IsDigital whole fraction ∧ fraction ≠ some [] ∧
      w = whole ++ fractionText fraction := by
  rw [complete, mem_decimal (fun _ hds => hds) fun _ hds => (mem_digits.mp hds).2]
  have hsome {whole : List Char} {fraction : Option (List Char)} (h : IsDigital whole fraction) :
      (∀ ds, fraction = some ds → ds ∈ digits) ↔ fraction ≠ some [] := by
    constructor
    · rintro hfraction rfl
      exact (mem_digits.mp (hfraction [] rfl)).1 rfl
    · rintro hne ds rfl
      exact mem_digits.mpr ⟨fun he => hne (by rw [he]), h.isDigit_fraction⟩
  constructor
  · rintro ⟨whole, fraction, hdigital, hfraction, rfl⟩
    exact ⟨whole, fraction, hdigital, (hsome hdigital).mp hfraction, rfl⟩
  · rintro ⟨whole, fraction, hdigital, hne, rfl⟩
    exact ⟨whole, fraction, hdigital, (hsome hdigital).mpr hne, rfl⟩

theorem mem_pointed : w ∈ pointed ↔
    ∃ whole fraction, IsDigital whole fraction ∧ w = whole ++ fractionText fraction := by
  rw [pointed, Language.mem_add, Language.mem_mul, mem_point_mul]
  constructor
  · rintro (⟨whole, hwhole, f, hf, rfl⟩ | ⟨ds, hds, rfl⟩)
    · obtain ⟨hne, hdigits⟩ := mem_digits.mp hwhole
      obtain ⟨pt, hpt, ds, hds, rfl⟩ := Language.mem_mul.mp hf
      have hds : ∀ c ∈ ds, isDigit c = true := mem_kstar_one.mp hds
      rcases mem_optional.mp hpt with rfl | ⟨c, hc, rfl⟩
      -- without a point the digits go on
      · refine ⟨whole ++ ds, none, ⟨?_, by simp, Or.inl (by simp [hne])⟩, by simp [fractionText]⟩
        exact fun c hc => (List.mem_append.mp hc).elim (hdigits c) (hds c)
      · exact ⟨whole, some ds, ⟨hdigits, hds, Or.inl hne⟩, by rw [beq_iff_eq.mp hc]; rfl⟩
    · obtain ⟨hne, hfraction⟩ := mem_digits.mp hds
      exact ⟨[], some ds, ⟨by simp, hfraction, Or.inr hne⟩, rfl⟩
  · rintro ⟨whole, fraction, hdigital, rfl⟩
    by_cases hne : whole = []
    · obtain ⟨ds, rfl⟩ : ∃ ds, fraction = some ds := by
        cases fraction with
        | none => exact absurd hne (hdigital.nonempty.resolve_right (by simp))
        | some ds => exact ⟨ds, rfl⟩
      refine Or.inr ⟨ds, mem_digits.mpr ⟨?_, hdigital.isDigit_fraction⟩, by rw [hne]; rfl⟩
      exact hdigital.nonempty.resolve_left (by simp [hne])
    · refine Or.inl ⟨whole, mem_digits.mpr ⟨hne, hdigital.isDigit_whole⟩, _, ?_, rfl⟩
      cases fraction with
      | none =>
        exact Language.mem_mul.mpr ⟨[], mem_optional.mpr (Or.inl rfl), [],
          Language.nil_mem_kstar _, rfl⟩
      | some ds =>
        exact Language.mem_mul.mpr ⟨['.'], mem_optional.mpr (Or.inr ⟨'.', rfl, rfl⟩), ds,
          mem_kstar_one.mpr hdigital.isDigit_fraction, rfl⟩

/-- Around digits of a language stand a sign and an exponent. -/
theorem mem_signed {P : Option (List Char) → Prop}
    (hbody : ∀ w, w ∈ body ↔
      ∃ whole fraction, IsDigital whole fraction ∧ P fraction ∧ w = whole ++ fractionText fraction) :
    w ∈ sign * (body * optional exponent) ↔ ∃ x, Spells x w ∧ P x.fraction := by
  constructor
  · intro h
    obtain ⟨s, hs, _, hrest, rfl⟩ := Language.mem_mul.mp h
    obtain ⟨b, hb, e, he, rfl⟩ := Language.mem_mul.mp hrest
    obtain ⟨negative, hsign⟩ := mem_sign.mp hs
    obtain ⟨whole, fraction, hdigital, hP, rfl⟩ := (hbody b).mp hb
    obtain ⟨power, hpower⟩ := mem_optional_exponent.mp he
    rw [List.append_assoc]
    exact ⟨⟨negative, whole, fraction, power⟩, .intro hsign hdigital hpower, hP⟩
  · rintro ⟨x, ⟨hsign, hdigital, hpower⟩, hP⟩
    rw [← List.append_assoc x.whole]
    exact Language.append_mem_mul (mem_sign.mpr ⟨_, hsign⟩)
      (Language.append_mem_mul ((hbody _).mpr ⟨_, _, hdigital, hP, rfl⟩)
        (mem_optional_exponent.mpr ⟨_, hpower⟩))

/-- The words of a source that are numbers are the spellings of numerals. -/
theorem mem_numeral : w ∈ numeral ↔ ∃ x, Spells x w := by
  have hbody (w : List Char) : w ∈ decimal digit∗ ↔ ∃ whole fraction,
      IsDigital whole fraction ∧ True ∧ w = whole ++ fractionText fraction := by
    have hkstar {ds : List Char} : ds ∈ digit∗ ↔ ∀ c ∈ ds, isDigit c = true := mem_kstar_one
    rw [mem_decimal (fun _ hds => hkstar.mpr (mem_digits.mp hds).2) fun _ => hkstar.mp]
    constructor
    · rintro ⟨whole, fraction, hdigital, -, rfl⟩
      exact ⟨whole, fraction, hdigital, trivial, rfl⟩
    · rintro ⟨whole, fraction, hdigital, -, rfl⟩
      refine ⟨whole, fraction, hdigital, ?_, rfl⟩
      rintro ds rfl
      exact hkstar.mpr hdigital.isDigit_fraction
  simpa [numeral] using mem_signed (P := fun _ => True) hbody

/-- What starts with a number has digits behind its sign, or a point with a digit. -/
theorem mem_ahead {cs : List Char} :
    cs ∈ ahead ↔ NumberPolicy.startsNumber (readSign cs).2 = true := by
  constructor
  · intro h
    obtain ⟨s, hs, _, hrest, rfl⟩ := Language.mem_mul.mp h
    obtain ⟨pt, hpt, _, hdigit, rfl⟩ := Language.mem_mul.mp hrest
    obtain ⟨d, ds, rfl, hd, -⟩ := mem_one_mul.mp hdigit
    obtain ⟨negative, hsign⟩ := mem_sign.mp hs
    have hplus : d ≠ '+' := ne_of_isDigit hd (by decide)
    have hminus : d ≠ '-' := ne_of_isDigit hd (by decide)
    rcases mem_optional.mp hpt with rfl | ⟨c, hc, rfl⟩
    · have hpoint : d ≠ '.' := ne_of_isDigit hd (by decide)
      rw [List.nil_append, hsign.readSign_append (by simp [hplus, hminus]),
        NumberPolicy.startsNumber]
      · exact hd
      · exact fun _ _ he => absurd he hpoint
    · rw [beq_iff_eq.mp hc, hsign.readSign_append (by simp)]
      exact hd
  · intro h
    obtain ⟨s, hcs, hsign⟩ := exists_spellsSign cs
    rw [hcs]
    refine Language.append_mem_mul (mem_sign.mpr ⟨_, hsign⟩) ?_
    generalize (readSign cs).2 = ds at h
    unfold NumberPolicy.startsNumber at h
    split at h
    · rename_i d ds
      exact Language.mem_mul.mpr ⟨['.'], mem_optional.mpr (Or.inr ⟨'.', rfl, rfl⟩), d :: ds,
        mem_one_mul.mpr ⟨d, ds, rfl, h, trivial⟩, rfl⟩
    · rename_i d ds _
      exact Language.mem_mul.mpr ⟨[], mem_optional.mpr (Or.inl rfl), d :: ds,
        mem_one_mul.mpr ⟨d, ds, rfl, h, trivial⟩, rfl⟩
    · simp at h

/-- There is a numeral to read where a text starts with a number. -/
theorem isSome_read?_iff_mem_ahead {cs : List Char} : (read? cs).isSome = true ↔ cs ∈ ahead :=
  isSome_read?_iff.trans mem_ahead.symm

/-- What follows a number does not matter to its start, and blanks do not make one. -/
theorem mem_ahead_append {cs : List Char} (rest : List Char) (h : cs ∈ ahead) :
    cs ++ rest ∈ ahead := by
  obtain ⟨s, hs, _, hrest, rfl⟩ := Language.mem_mul.mp h
  obtain ⟨pt, hpt, _, hdigit, rfl⟩ := Language.mem_mul.mp hrest
  obtain ⟨d, ds, rfl, hd, -⟩ := mem_one_mul.mp hdigit
  rw [List.append_assoc, List.append_assoc]
  exact Language.append_mem_mul hs (Language.append_mem_mul hpt
    (mem_one_mul.mpr ⟨d, ds ++ rest, rfl, hd, trivial⟩))

/-- Blanks behind a text do not make it start with a number. -/
theorem mem_ahead_of_append_blanks {cs after : List Char} (hafter : ∀ c ∈ after, isBlank c = true)
    (h : cs ++ after ∈ ahead) : cs ∈ ahead := by
  obtain ⟨s, hs, _, hrest, heq⟩ := Language.mem_mul.mp h
  obtain ⟨pt, hpt, _, hdigit, rfl⟩ := Language.mem_mul.mp hrest
  obtain ⟨d, ds, rfl, hd, -⟩ := mem_one_mul.mp hdigit
  have hsplit : (s ++ (pt ++ [d])) ++ ds = cs ++ after := by simpa using heq
  -- the digit is no blank, so it stands before them
  rcases List.append_eq_append_iff.mp hsplit with ⟨tail, rfl, -⟩ | ⟨tail, hlead, rfl⟩
  · rw [List.append_assoc, List.append_assoc]
    exact Language.append_mem_mul hs (Language.append_mem_mul hpt
      (mem_one_mul.mpr ⟨d, tail, rfl, hd, trivial⟩))
  · rcases List.eq_nil_or_concat tail with rfl | ⟨init, last, rfl⟩
    · rw [List.append_nil] at hlead
      rw [← hlead]
      exact Language.append_mem_mul hs (Language.append_mem_mul hpt
        (mem_one_mul.mpr ⟨d, [], rfl, hd, trivial⟩))
    · obtain rfl : d = last := by
        have hlast := congrArg List.getLast? hlead
        simpa using hlast
      have hblank := hafter d (by simp)
      rw [isBlank_of_isDigit hd] at hblank
      exact absurd hblank Bool.false_ne_true

end
end NumberShape
end RuleTree
