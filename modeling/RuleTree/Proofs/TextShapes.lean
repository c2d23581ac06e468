import RuleTree.Proofs.NumberShapes
import RuleTree.Source.Lexicon

/-! # The shapes of texts

A text token is a row of pieces between two quotes.  A piece is a plain character, or the quote
twice (`TextShape.doubling`), or any character behind a backslash (`TextShape.escaping`).  The two
scanners find the closing quote of the longest such token (`TextShape.Closes`), so the extent of a
text is that of the longest word of its language (`TextTerminal.extent?_eq_some_iff`).
-/
namespace RuleTree
open Text Source
open NumberShape (one mem_one mem_one_mul)
open scoped Computability

/-! ### The languages of texts -/

namespace TextShape

/-- Pieces between two quotes. -/
def between (quote : Char) (piece : Language Char) : Language Char :=
  one (· == quote) * (piece∗ * one (· == quote))

/-- Any character but the quote, or the quote twice. -/
def doubling (quote : Char) : Language Char :=
  one (· != quote) + one (· == quote) * one (· == quote)

/-- Any character but the quote and the backslash, or a backslash and any character but a line
break. -/
def escaping (quote : Char) : Language Char :=
  one (fun c => c != quote && c != '\\') + one (· == '\\') * one (· != '\n')

/-- A word of the language, where the text that starts with it starts with no longer one. -/
structure IsLongest (L : Language Char) (w rest : List Char) : Prop where
  mem : w ∈ L
  length_le : ∀ v ∈ L, v <+: w ++ rest → v.length ≤ w.length

section
variable {quote : Char} {piece : Language Char} {w : List Char}

theorem mem_between :
    w ∈ between quote piece ↔ ∃ body ∈ piece∗, w = quote :: (body ++ [quote]) := by
  rw [between, mem_one_mul]
  constructor
  · rintro ⟨c, _, rfl, hc, hrest⟩
    obtain ⟨body, hbody, _, ⟨d, hd, rfl⟩, rfl⟩ := Language.mem_mul.mp hrest
    exact ⟨body, hbody, by rw [beq_iff_eq.mp hc, beq_iff_eq.mp hd]⟩
  · rintro ⟨body, hbody, rfl⟩
    exact ⟨quote, _, rfl, beq_self_eq_true _,
      Language.append_mem_mul hbody (mem_one.mpr ⟨quote, beq_self_eq_true _, rfl⟩)⟩

theorem mem_doubling : w ∈ doubling quote ↔ (∃ c, c ≠ quote ∧ w = [c]) ∨ w = [quote, quote] := by
  rw [doubling, Language.mem_add, mem_one, mem_one_mul]
  refine or_congr (by simp) ?_
  constructor
  · rintro ⟨c, _, rfl, hc, d, hd, rfl⟩
    rw [beq_iff_eq.mp hc, beq_iff_eq.mp hd]
  · rintro rfl
    exact ⟨quote, [quote], rfl, beq_self_eq_true _, quote, beq_self_eq_true _, rfl⟩

theorem mem_escaping : w ∈ escaping quote ↔
    (∃ c, (c ≠ quote ∧ c ≠ '\\') ∧ w = [c]) ∨ ∃ c, c ≠ '\n' ∧ w = ['\\', c] := by
  rw [escaping, Language.mem_add, mem_one, mem_one_mul]
  refine or_congr (by simp) ?_
  constructor
  · rintro ⟨c, _, rfl, hc, d, hd, rfl⟩
    exact ⟨d, by simpa using hd, by rw [beq_iff_eq.mp hc]⟩
  · rintro ⟨d, hd, rfl⟩
    exact ⟨'\\', [d], rfl, rfl, d, by simpa using hd, rfl⟩

/-- What holds of no pieces, and of more pieces with one before them, holds of every row. -/
theorem kstar_induction {p : List Char → Prop} (hnil : p [])
    (hcons : ∀ v ∈ piece, ∀ body, p body → p (v ++ body)) (hw : w ∈ piece∗) : p w := by
  obtain ⟨words, rfl, hwords⟩ := Language.mem_kstar.mp hw
  clear hw
  induction words with
  | nil => exact hnil
  | cons word words ih =>
    obtain ⟨hword, hrest⟩ := List.forall_mem_cons.mp hwords
    exact hcons word hword _ (ih hrest)

theorem append_mem_kstar {v : List Char} (hv : v ∈ piece) (hw : w ∈ piece∗) :
    v ++ w ∈ piece∗ :=
  (mul_kstar_le_kstar : piece * piece∗ ≤ piece∗) (Language.append_mem_mul hv hw)

end

/-! ### Closing quotes -/

/-- Behind the opening quote a text is read to a quote with pieces before it, and to no quote
before the last one of this kind. -/
structure Closes (close? : List Char → Option Nat) (quote : Char) (piece : Language Char) :
    Prop where
  exists_body : ∀ {cs n}, close? cs = some n →
    ∃ body ∈ piece∗, ∃ rest, cs = body ++ quote :: rest ∧ n = body.length + 1
  reaches : ∀ {body}, body ∈ piece∗ → ∀ rest, ∃ n, close? (body ++ quote :: rest) = some n ∧
    body.length + 1 ≤ n

theorem closes_doubled (quote : Char) : Closes (closeDoubled? quote) quote (doubling quote) where
  exists_body := by
    intro cs
    have hquotes : [quote, quote] ∈ doubling quote := mem_doubling.mpr (Or.inr rfl)
    fun_induction closeDoubled? quote cs with
    | case1 | case3 => rintro _ ⟨⟩
    | case2 => rintro _ ⟨⟩; exact ⟨[], Language.nil_mem_kstar _, [], rfl, rfl⟩
    | case5 | case6 => rintro _ ⟨⟩; exact ⟨[], Language.nil_mem_kstar _, _, rfl, rfl⟩
    | case4 cs m hm ih =>
      rintro _ ⟨⟩
      obtain ⟨body, hbody, rest, hcs, hm⟩ := ih hm
      exact ⟨_, append_mem_kstar hquotes hbody, rest, by rw [hcs]; rfl, by rw [hm]; rfl⟩
    | case7 c d cs hc ih =>
      intro n hn
      obtain ⟨m, hm, rfl⟩ := Option.map_eq_some_iff.mp hn
      obtain ⟨body, hbody, rest, hcs, rfl⟩ := ih hm
      exact ⟨_, append_mem_kstar (mem_doubling.mpr (Or.inl ⟨c, hc, rfl⟩)) hbody, rest,
        by rw [hcs]; rfl, rfl⟩
  reaches := by
    intro body hbody rest
    refine kstar_induction (p := fun body => ∃ n,
      closeDoubled? quote (body ++ quote :: rest) = some n ∧ body.length + 1 ≤ n) ?_ ?_ hbody
    · rw [List.nil_append]
      cases rest with
      | nil => exact ⟨1, by simp [closeDoubled?], Nat.le_refl _⟩
      | cons d rest =>
        rw [closeDoubled?, if_pos rfl]
        split
        · split
          · exact ⟨_, rfl, by simp⟩
          · exact ⟨1, rfl, Nat.le_refl _⟩
        · exact ⟨1, rfl, Nat.le_refl _⟩
    · rintro v hv body ⟨n, hn, hle⟩
      rcases mem_doubling.mp hv with ⟨c, hc, rfl⟩ | rfl
      · -- behind the character something follows, at least the quote
        obtain ⟨d, ds, hd⟩ : ∃ d ds, body ++ quote :: rest = d :: ds :=
          List.exists_cons_of_ne_nil (by simp)
        refine ⟨n + 1, ?_, by simpa using hle⟩
        rw [hd] at hn
        simp [hd, closeDoubled?, hc, hn]
      · refine ⟨n + 2, ?_, by simpa using hle⟩
        simp [closeDoubled?, hn]

theorem closes_escaped {quote : Char} (hquote : quote ≠ '\\') :
    Closes (closeEscaped? quote) quote (escaping quote) where
  exists_body := by
    intro cs
    fun_induction closeEscaped? quote cs with
    | case1 | case2 | case3 => rintro _ ⟨⟩
    | case4 c cs hc ih =>
      intro n hn
      obtain ⟨m, hm, rfl⟩ := Option.map_eq_some_iff.mp hn
      obtain ⟨body, hbody, rest, hcs, rfl⟩ := ih hm
      exact ⟨_, append_mem_kstar (mem_escaping.mpr (Or.inr ⟨c, hc, rfl⟩)) hbody, rest,
        by rw [hcs]; rfl, rfl⟩
    | case5 => rintro _ ⟨⟩; exact ⟨[], Language.nil_mem_kstar _, _, rfl, rfl⟩
    | case6 c cs hlone hescape hc ih =>
      intro n hn
      obtain ⟨m, hm, rfl⟩ := Option.map_eq_some_iff.mp hn
      obtain ⟨body, hbody, rest, hcs, rfl⟩ := ih hm
      have hplain : c ≠ '\\' := by
        rintro rfl
        cases cs with
        | nil => exact hlone rfl rfl
        | cons d cs => exact hescape d cs rfl rfl
      exact ⟨_, append_mem_kstar (mem_escaping.mpr (Or.inl ⟨c, ⟨hc, hplain⟩, rfl⟩)) hbody, rest,
        by rw [hcs]; rfl, rfl⟩
  reaches := by
    intro body hbody rest
    suffices hclose : closeEscaped? quote (body ++ quote :: rest) = some (body.length + 1) from
      ⟨_, hclose, Nat.le_refl _⟩
    refine kstar_induction (p := fun body =>
      closeEscaped? quote (body ++ quote :: rest) = some (body.length + 1)) ?_ ?_ hbody
    · rw [List.nil_append, closeEscaped?, if_pos rfl]
      · rfl
      · exact fun he _ => hquote he
      · exact fun _ _ he _ => hquote he
    · intro v hv body hbody
      rcases mem_escaping.mp hv with ⟨c, ⟨hc, hplain⟩, rfl⟩ | ⟨c, hc, rfl⟩
      · rw [List.singleton_append, List.cons_append, closeEscaped?, if_neg hc, hbody]
        · rfl
        · exact fun he _ => hplain he
        · exact fun _ _ he _ => hplain he
      · simp [closeEscaped?, hc, hbody]

/-- So what is read is the longest word between the quotes. -/
theorem Closes.isLongest {close? : List Char → Option Nat} {quote : Char} {piece : Language Char}
    (h : Closes close? quote piece) {cs rest : List Char}
    (hclose : close? (cs ++ rest) = some cs.length) :
    IsLongest (between quote piece) (quote :: cs) rest where
  mem := by
    obtain ⟨body, hbody, after, hcs, hlength⟩ := h.exists_body hclose
    refine mem_between.mpr ⟨body, hbody, ?_⟩
    have hsplit : cs ++ rest = (body ++ [quote]) ++ after := by simpa using hcs
    rw [(List.append_inj hsplit (by simpa using hlength)).1]
  length_le := by
    rintro v hv ⟨after, hafter⟩
    obtain ⟨body, hbody, rfl⟩ := mem_between.mp hv
    have hcs : body ++ quote :: after = cs ++ rest := by simpa using hafter
    obtain ⟨n, hn, hle⟩ := h.reaches hbody after
    rw [hcs, hclose] at hn
    obtain rfl := Option.some.inj hn
    simpa using hle

end TextShape

/-! ### Text tokens -/

open TextShape

/-- What the text tokens of a language look like. -/
structure TextTerminal where
  /-- The quotes that a text may stand between. -/
  quotes : List Char
  /-- What may stand between them. -/
  piece : Char → Language Char
  close? : Char → List Char → Option Nat
  closes : ∀ quote ∈ quotes, Closes (close? quote) quote (piece quote)

namespace TextTerminal

/-- Texts in quotes that are doubled inside. -/
def doubled (quotes : List Char) : TextTerminal :=
  ⟨quotes, doubling, closeDoubled?, fun quote _ => closes_doubled quote⟩

/-- Texts in quotes with backslashes inside. -/
def escaped (quotes : List Char) (h : '\\' ∉ quotes) : TextTerminal :=
  ⟨quotes, escaping, closeEscaped?, fun _ hquote => closes_escaped (ne_of_mem_of_not_mem hquote h)⟩

/-- The words that are texts. -/
def shape (t : TextTerminal) : Language Char :=
  {w | ∃ quote ∈ t.quotes, w ∈ between quote (t.piece quote)}

/-- The extent of a text that starts with a character. -/
def extent? (t : TextTerminal) (c : Char) (cs : List Char) : Option Nat :=
  if c ∈ t.quotes then t.close? c cs else none

variable {t : TextTerminal} {c : Char} {cs rest : List Char}

/-- Words with different quotes have no beginning in common. -/
theorem isLongest_shape (hc : c ∈ t.quotes) :
    IsLongest t.shape (c :: cs) rest ↔ IsLongest (between c (t.piece c)) (c :: cs) rest := by
  constructor
  · rintro ⟨⟨quote, hquote, hmem⟩, hle⟩
    obtain ⟨body, -, hw⟩ := mem_between.mp hmem
    obtain rfl := (List.cons.inj hw).1
    exact ⟨hmem, fun v hv => hle v ⟨c, hc, hv⟩⟩
  · rintro ⟨hmem, hle⟩
    refine ⟨⟨c, hc, hmem⟩, ?_⟩
    rintro v ⟨quote, hquote, hv⟩ hprefix
    obtain ⟨body, -, rfl⟩ := mem_between.mp hv
    obtain rfl := (List.cons_prefix_cons.mp hprefix).1
    exact hle _ hv hprefix

/-- **Texts.**  The extent of a text is that of the longest word of its language. -/
theorem extent?_eq_some_iff {n : Nat} :
    t.extent? c cs = some n ↔ n ≤ cs.length ∧ IsLongest t.shape (c :: cs.take n) (cs.drop n) := by
  constructor
  · intro h
    obtain ⟨hc, hclose⟩ := Option.ite_none_right_eq_some.mp h
    have hle : n ≤ cs.length := by
      obtain ⟨body, -, after, rfl, rfl⟩ := (t.closes c hc).exists_body hclose
      simp
    refine ⟨hle, (isLongest_shape hc).mpr ((t.closes c hc).isLongest ?_)⟩
    rw [List.take_append_drop, List.length_take_of_le hle, hclose]
  · rintro ⟨hn, hlongest⟩
    obtain ⟨quote, hc, hmem⟩ := hlongest.mem
    obtain ⟨body, hbody, hw⟩ := mem_between.mp hmem
    obtain ⟨rfl, htake⟩ := List.cons.inj hw
    -- what the scanner finds is a word too, and it is no shorter
    have hcs : cs = body ++ c :: cs.drop n := by
      conv_lhs => rw [← List.take_append_drop n cs, htake]
      simp
    obtain ⟨m, hm, hle⟩ := (t.closes c hc).reaches hbody (cs.drop n)
    rw [← hcs] at hm
    have hbodyLength : body.length + 1 = n := by
      have hlength := congrArg List.length htake
      simpa [List.length_take_of_le hn] using hlength.symm
    have hmle : m ≤ cs.length := by
      obtain ⟨body', -, after, hsplit, rfl⟩ := (t.closes c hc).exists_body hm
      rw [hsplit]
      simp
    have hword : c :: cs.take m ∈ t.shape := by
      have hclosed : IsLongest (between c (t.piece c)) (c :: cs.take m) (cs.drop m) := by
        refine (t.closes c hc).isLongest ?_
        rw [List.take_append_drop, List.length_take_of_le hmle, hm]
      exact ((isLongest_shape hc).mpr hclosed).mem
    have hprefix : c :: cs.take m <+: (c :: cs.take n) ++ cs.drop n := by
      rw [List.cons_append, List.take_append_drop]
      exact List.cons_prefix_cons.mpr ⟨rfl, List.take_prefix m cs⟩
    have hshort := hlongest.length_le _ hword hprefix
    simp only [List.length_cons, List.length_take_of_le hmle, List.length_take_of_le hn] at hshort
    rw [extent?, if_pos hc, hm]
    congr 1
    omega

end TextTerminal
end RuleTree
