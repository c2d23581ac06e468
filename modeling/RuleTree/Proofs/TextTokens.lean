import RuleTree.Proofs.RoundTrip.Cel
import RuleTree.Proofs.RoundTrip.Spel
import RuleTree.Proofs.RoundTrip.Sql
import RuleTree.Proofs.TextShapes

/-! # Texts stay in their quotes

A text is written as a literal, and whatever it holds, quotes, backslashes or line breaks, the
literal is one token and stands for the text (`TextSyntax.token_quote`).  What follows the literal
does not matter to it, except that SQL and SpEL double the quotes inside a text: there another
quote right behind the literal would be taken for one of the text (`TextSyntax.MayFollow`).

That the token is no longer than the literal is said of the language of texts and not of the
scanner: among its words no longer one starts there (`TextShape.IsLongest`).
-/
namespace RuleTree
open Source TextShape

/-- The texts of a language: what they look like, how they are written and how they are read. -/
structure TextSyntax where
  dialect : Dialect
  terminal : TextTerminal
  lexicon : Lexicon
  /-- A text as a literal. -/
  quote : String → String
  operand : Leaf → Operand

namespace TextSyntax

def sql : TextSyntax :=
  ⟨.sql, .doubled ['\''], Sql.lexicon, Sql.textLiteral, Sql.operand⟩

def cel : TextSyntax :=
  ⟨.cel, .escaped ['"', '\''] (by decide), Cel.lexicon, Language.cel.quote, Cel.operand⟩

def spel : TextSyntax :=
  ⟨.spel, .doubled ['\'', '"'], Spel.lexicon, Language.spel.quote, Spel.operand⟩

/-- The languages whose sources are texts. -/
def all : List TextSyntax := [sql, cel, spel]

/-- What may follow a literal: anything in CEL, and elsewhere no single quote. -/
def MayFollow (t : TextSyntax) (rest : List Char) : Prop :=
  t.dialect ≠ .cel → ∀ c ∈ rest.head?, c ≠ '\''

/-! ### What the languages have in common -/

/-- The scanner looks for texts of the terminal, the literals end where they are written to end,
and they are read as what was written. -/
structure IsSound (t : TextSyntax) : Prop where
  extent_text : ∀ c cs, t.lexicon.extent? .text c cs = t.terminal.extent? c cs
  /-- Nothing that is looked for before texts starts with a quote of theirs. -/
  first : ∃ before after, t.lexicon.terminals = before ++ .text :: after ∧
    ∀ u ∈ before, ∀ c ∈ t.terminal.quotes, ∀ cs, t.lexicon.extent? u c cs = none
  isSpace_quote : ∀ c ∈ t.terminal.quotes, isSpace c = false
  closes : ∀ s, ∃ c ∈ t.terminal.quotes, ∃ cs, (t.quote s).toList = c :: cs ∧
    ∀ rest, t.MayFollow rest → t.terminal.close? c (cs ++ rest) = some cs.length
  operand_quote : ∀ s, t.operand (.text (t.quote s).toList) = .literal (.text s)

/-- A text in single quotes that are doubled inside ends with its literal. -/
theorem closes_textLiteral {t : TextSyntax} (ht : t.dialect ≠ .cel)
    (hquote : t.quote = Sql.textLiteral) (hmem : '\'' ∈ t.terminal.quotes)
    (hclose : t.terminal.close? = closeDoubled?) (s : String) :
    ∃ c ∈ t.terminal.quotes, ∃ cs, (t.quote s).toList = c :: cs ∧
      ∀ rest, t.MayFollow rest → t.terminal.close? c (cs ++ rest) = some cs.length := by
  refine ⟨'\'', hmem, _, by rw [hquote]; exact Text.toList_textLiteral s, fun rest hrest => ?_⟩
  rw [hclose]
  exact Text.closeDoubled?_textLiteral s (hrest ht)

theorem isSound_sql : IsSound sql where
  extent_text c cs := by
    by_cases hc : c = '\'' <;>
      simp [sql, Lexicon.extent?, Sql.lexicon, Sql.wordExtent?, TextTerminal.extent?,
        TextTerminal.doubled, hc]
  first := by
    refine ⟨[.name, .quotedName], _, rfl, ?_⟩
    rintro u hu c hc cs
    obtain rfl := List.mem_singleton.mp hc
    simp only [List.mem_cons, List.not_mem_nil, or_false] at hu
    rcases hu with rfl | rfl <;> rfl
  isSpace_quote c hc := by
    obtain rfl := List.mem_singleton.mp hc
    rfl
  closes := closes_textLiteral (by decide) rfl List.mem_cons_self rfl
  operand_quote := Sql.operand_text

theorem isSound_cel : IsSound cel where
  extent_text c cs := by
    simp [cel, Lexicon.extent?, Cel.lexicon, Cel.wordExtent?, TextTerminal.extent?,
      TextTerminal.escaped]
  first := by
    refine ⟨[.name], _, rfl, ?_⟩
    rintro u hu c hc cs
    obtain rfl := List.mem_singleton.mp hu
    have hstart : ∀ c ∈ ['"', '\''], Cel.startsName c = false :=
      List.all_iff_forall_prop.mp (by decide)
    simp [cel, Lexicon.extent?, Cel.lexicon, Cel.wordExtent?, dottedExtent?, hstart c hc]
  isSpace_quote := List.all_iff_forall_prop.mp (by decide)
  closes s := by
    refine ⟨'"', List.mem_cons_self, _, Cel.toList_quote s, fun rest _ => ?_⟩
    have hclose := Text.closeEscaped?_backslashed (by decide : '"' ≠ '\\') (by decide) s.toList rest
    simpa [cel, TextTerminal.escaped] using hclose
  operand_quote s := by
    have htext : String.ofList (Cel.textOf (Language.cel.quote s).toList) = s := by
      rw [Cel.vocabulary.unquote, String.ofList_toList]
    exact congrArg (fun s => Operand.literal (.text s)) htext

theorem isSound_spel : IsSound spel where
  extent_text c cs := by
    simp [spel, Lexicon.extent?, Spel.lexicon, Spel.wordExtent?, TextTerminal.extent?,
      TextTerminal.doubled, or_comm]
  first := by
    refine ⟨[.name], _, rfl, ?_⟩
    rintro u hu c hc cs
    obtain rfl := List.mem_singleton.mp hu
    have hstart : ∀ c ∈ ['\'', '"'], Spel.startsName c = false :=
      List.all_iff_forall_prop.mp (by decide)
    simp [spel, Lexicon.extent?, Spel.lexicon, Spel.wordExtent?, dottedExtent?, hstart c hc]
  isSpace_quote := List.all_iff_forall_prop.mp (by decide)
  closes := closes_textLiteral (by decide) rfl List.mem_cons_self rfl
  operand_quote s := by
    have htext : String.ofList (Spel.textOf (Language.spel.quote s).toList) = s := by
      rw [Spel.vocabulary.unquote, String.ofList_toList]
    exact congrArg (fun s => Operand.literal (.text s)) htext

theorem isSound_of_mem {t : TextSyntax} (h : t ∈ all) : t.IsSound := by
  simp only [all, List.mem_cons, List.not_mem_nil, or_false] at h
  rcases h with rfl | rfl | rfl
  · exact isSound_sql
  · exact isSound_cel
  · exact isSound_spel

/-! ### Literals -/

/-- **Texts stay in their quotes.**  A literal is the longest text where it stands, whatever
follows it, so it is a token wherever a text may come, and that token stands for what was
written. -/
theorem token_quote {t : TextSyntax} (ht : t ∈ all) {rest : List Char} (hrest : t.MayFollow rest)
    (s : String) :
    IsLongest t.terminal.shape (t.quote s).toList rest ∧
      (∀ wanted, .text ∈ wanted → t.lexicon.Lexes wanted (t.quote s).toList rest .text) ∧
      (⟨.text, (t.quote s).toList⟩ : Token).leaf?.map t.operand = some (.literal (.text s)) := by
  have hsound := isSound_of_mem ht
  obtain ⟨c, hc, cs, hquote, hclose⟩ := hsound.closes s
  have hextent : t.terminal.extent? c (cs ++ rest) = some cs.length := by
    rw [TextTerminal.extent?, if_pos hc, hclose rest hrest]
  refine ⟨?_, ?_, congrArg some (hsound.operand_quote s)⟩
  · have hlongest := (TextTerminal.extent?_eq_some_iff.mp hextent).2
    rw [List.take_left' rfl, List.drop_left' rfl] at hlongest
    rwa [hquote]
  · intro wanted hwanted
    obtain ⟨before, after, hterminals, hbefore⟩ := hsound.first
    refine ⟨c, cs, hquote, hsound.isSpace_quote c hc, ?_⟩
    rw [t.lexicon.token?_of_first before hterminals (fun u hu => hbefore u hu c hc _) hwanted
      ((hsound.extent_text c _).trans hextent), if_neg (by decide), List.take_left' rfl, hquote]

/-- A text with a condition inside and a backslash at its end, before a condition. -/
theorem token_quote_injected :
    sql ∈ all ∧ sql.MayFollow " or 'x' = 'x'".toList ∧
      IsLongest sql.terminal.shape "'a'' or ''x'' = ''x\\'''".toList " or 'x' = 'x'".toList := by
  have hall : sql ∈ all := List.mem_cons_self
  have hrest : sql.MayFollow " or 'x' = 'x'".toList := by
    rintro - c hc rfl
    cases hc
  exact ⟨hall, hrest, (token_quote hall hrest "a' or 'x' = 'x\\'").1⟩

end TextSyntax
end RuleTree
