import RuleTree.Proofs.Numerals
import RuleTree.Proofs.Scanning

/-! # Where tokens stand

A token of a text is found at some point of the reading, where certain terminals are looked for
and certain characters follow (`Grammar.Finds`).  The tokens that a text is scanned to are those
that are found in it (`Scans.exists_finds`), and if the text is read as a formula, then so is what
follows each of them, from one step further on (`Grammar.Finds.exists_step`).

Whatever is found is a token at that point (`Lexicon.Lexes`), and its terminal says how it is
spelled: a keyword by its letters (`Lexes.keyword`), a sign of comparison as one of the language
(`Lexes.comparator`) and a number as a numeral (`Lexes.number`).
-/
namespace RuleTree
namespace Source
variable {S P : Type} {g : Grammar S P} {l : Lexicon}

/-! ### What a terminal says of the spelling -/

namespace Lexicon
variable {wanted : List Terminal} {c : Char} {cs w rest : List Char} {t : Terminal}

/-- A token is a lexeme of one of the terminals that are looked for. -/
theorem exists_extent_of_token? {token : Token} (h : l.token? wanted c cs = some token) :
    ∃ t ∈ l.terminals, t ∈ wanted ∧ ∃ n, l.extent? t c cs = some n ∧
      token =
        ⟨if t = .name then l.nameTerminal wanted (c :: cs.take n) else t, c :: cs.take n⟩ := by
  obtain ⟨t, ht, hfound⟩ := List.exists_of_findSome?_eq_some h
  obtain ⟨hwanted, hfound⟩ := Option.ite_none_right_eq_some.mp hfound
  obtain ⟨n, hn, htoken⟩ := Option.map_eq_some_iff.mp hfound
  exact ⟨t, ht, hwanted, n, hn, htoken.symm⟩

/-- What is found is a token with the rest behind it. -/
theorem lexes_of_token? {token : Token} (hspace : isSpace c = false)
    (h : l.token? wanted c cs = some token) :
    l.Lexes wanted token.spelling (cs.drop (token.spelling.length - 1)) token.terminal := by
  obtain ⟨_, -, -, n, -, htoken⟩ := exists_extent_of_token? h
  have hspelling : token.spelling = c :: cs.take n := congrArg Token.spelling htoken
  have hcs : cs.take n ++ cs.drop (token.spelling.length - 1) = cs := by
    rw [hspelling, List.length_cons, Nat.add_sub_cancel, List.length_take]
    rcases Nat.le_total n cs.length with hn | hn
    · rw [Nat.min_eq_left hn, List.take_append_drop]
    · rw [Nat.min_eq_right hn, List.take_of_length_le hn, List.drop_length, List.append_nil]
  exact ⟨c, cs.take n, hspelling, hspace, by rw [hcs]; exact h⟩

/-- A whole name is a keyword only if that may come next. -/
theorem nameTerminal_eq_keyword {k : Keyword} (h : l.nameTerminal wanted w = .keyword k) :
    .keyword k ∈ wanted ∧ w.map l.fold = k.letters := by
  unfold nameTerminal at h
  extract_lets isKeyword at h
  cases hfind : wanted.find? isKeyword with
  | none =>
    rw [hfind] at h
    cases h
  | some t =>
    obtain rfl : t = .keyword k := by rwa [hfind] at h
    exact ⟨List.mem_of_find?_eq_some hfind, by simpa [isKeyword] using List.find?_some hfind⟩

/-- A whole name is a keyword or a name. -/
theorem nameTerminal_cases (l : Lexicon) (wanted : List Terminal) (w : List Char) :
    l.nameTerminal wanted w = .name ∨ ∃ k, l.nameTerminal wanted w = .keyword k := by
  unfold nameTerminal
  extract_lets isKeyword
  cases hfind : wanted.find? isKeyword with
  | none => exact Or.inl rfl
  | some t =>
    cases t with
    | keyword k => exact Or.inr ⟨k, rfl⟩
    | _ => exact absurd (List.find?_some hfind) (by simp [isKeyword])

/-- A keyword is spelled by its letters, where it may come next. -/
theorem Lexes.keyword {k : Keyword} (h : l.Lexes wanted w rest (.keyword k)) :
    .keyword k ∈ wanted ∧ w.map l.fold = k.letters := by
  obtain ⟨c, cs, rfl, -, htoken⟩ := h
  obtain ⟨t, -, ht, n, hn, heq⟩ := exists_extent_of_token? htoken
  obtain ⟨hterminal, hspelling⟩ := Token.mk.inj heq
  rw [← hspelling] at hterminal
  split at hterminal
  · exact nameTerminal_eq_keyword hterminal.symm
  · subst hterminal
    obtain ⟨hletters, hlength⟩ := Option.ite_none_right_eq_some.mp hn
    rw [Option.some.inj hlength, ← hspelling] at hletters
    exact ⟨ht, hletters⟩

/-- Any token that is neither a name nor a keyword is a lexeme of its terminal. -/
theorem Lexes.exists_extent (h : l.Lexes wanted w rest t) (hname : t ≠ .name)
    (hkeyword : ∀ k, t ≠ .keyword k) :
    ∃ c cs n, w = c :: cs ∧ l.extent? t c (cs ++ rest) = some n ∧ cs = (cs ++ rest).take n := by
  obtain ⟨c, cs, rfl, -, htoken⟩ := h
  obtain ⟨u, -, -, n, hn, heq⟩ := exists_extent_of_token? htoken
  obtain ⟨hterminal, hspelling⟩ := Token.mk.inj heq
  split at hterminal
  · rcases nameTerminal_cases l wanted (c :: (cs ++ rest).take n) with hword | ⟨k, hword⟩
    · exact absurd (hterminal.trans hword) hname
    · exact absurd (hterminal.trans hword) (hkeyword k)
  · subst hterminal
    exact ⟨c, cs, n, rfl, hn, (List.cons.inj hspelling).2⟩

/-- A sign of comparison is one of those that the language has. -/
theorem Lexes.comparator (h : l.Lexes wanted w rest .comparator) : w ∈ l.comparators := by
  obtain ⟨c, cs, n, rfl, hn, hcs⟩ := h.exists_extent nofun nofun
  obtain ⟨sign, hsign, hfixed⟩ := List.exists_of_findSome?_eq_some hn
  obtain ⟨hcharacters, hlength⟩ := Option.ite_none_right_eq_some.mp hfixed
  rw [Option.some.inj hlength, List.map_id, ← hcs] at hcharacters
  rwa [hcharacters]

/-- A number is spelled as a numeral. -/
theorem Lexes.number (h : l.Lexes wanted w rest .number) : ∃ x, Numeral.Spells x w := by
  obtain ⟨c, cs, n, rfl, hn, htake⟩ := h.exists_extent nofun nofun
  obtain ⟨⟨x, after⟩, hread, hlength⟩ := Option.map_eq_some_iff.mp hn
  obtain ⟨lead, hlead, hx⟩ := Numeral.exists_spells_of_read? hread
  have hne : lead ≠ [] := by
    rintro rfl
    cases hx.read?
  obtain ⟨d, lead, rfl⟩ := List.exists_cons_of_ne_nil hne
  obtain ⟨rfl, hcs⟩ := List.cons.inj (hlead.trans (List.cons_append ..))
  -- what is read is as long as the extent says
  have hextent : lead.length = n := by
    have hlength : (cs ++ rest).length - after.length = n := hlength
    rw [← hlength, hcs, List.length_append, Nat.add_sub_cancel]
  rw [htake, hcs, List.take_left' hextent]
  exact ⟨x, hx⟩

end Lexicon

/-! ### Tokens of a text -/

/-- Reading a text finds a token: how far it has come there, and what follows the token. -/
inductive Grammar.Finds (g : Grammar S P) :
    Progress S P → List Char → Progress S P → Token → List Char → Prop where
  | here {progress : Progress S P} {cs after : List Char} {c : Char} {token : Token} :
      skipSpaces cs = c :: after → g.lexicon.token? (progress.wanted g) c after = some token →
      Finds g progress cs progress token (after.drop (token.spelling.length - 1))
  | further {progress next there : Progress S P} {cs after rest : List Char} {c : Char}
      {token found : Token} :
      skipSpaces cs = c :: after → g.lexicon.token? (progress.wanted g) c after = some token →
      progress.step? g token = some next →
      Finds g next (after.drop (token.spelling.length - 1)) there found rest →
      Finds g progress cs there found rest

section
variable {progress there : Progress S P} {cs rest : List Char} {token : Token}

/-- Blanks are left out in front of a token. -/
theorem isSpace_of_skipSpaces {c : Char} {after : List Char} (h : skipSpaces cs = c :: after) :
    isSpace c = false := by
  have hhead := List.head?_dropWhile_not isSpace cs
  rw [show cs.dropWhile isSpace = c :: after from h] at hhead
  simpa using hhead

theorem Grammar.Finds.lexes (h : g.Finds progress cs there token rest) :
    g.lexicon.Lexes (there.wanted g) token.spelling rest token.terminal := by
  induction h with
  | here hskip htoken => exact Lexicon.lexes_of_token? (isSpace_of_skipSpaces hskip) htoken
  | further _ _ _ _ ih => exact ih

/-- In a text that is read to its end, reading goes on behind every token. -/
theorem Grammar.Finds.exists_step (h : g.Finds progress cs there token rest) {f : Formula P}
    (hread : readFrom g progress cs = .ok f) :
    ∃ next, there.step? g token = some next ∧ readFrom g next rest = .ok f := by
  induction h with
  | @here progress cs after c token hskip htoken =>
    rw [readFrom_eq, hskip] at hread
    simp only [htoken] at hread
    split at hread
    · cases hread
    · exact ⟨_, ‹_›, hread⟩
  | @further progress next there cs after rest c token found hskip htoken hstep _ ih =>
    rw [readFrom_eq, hskip] at hread
    simp only [htoken, hstep] at hread
    exact ih hread

/-- The tokens of a text are found in it. -/
theorem Scans.exists_finds {tokens : List Token} (h : Scans g progress cs tokens)
    (hmem : token ∈ tokens) : ∃ there rest, g.Finds progress cs there token rest := by
  induction h with
  | atEnd => cases hmem
  | token hskip htoken hstep _ ih =>
    rcases List.mem_cons.mp hmem with rfl | hmem
    · exact ⟨_, _, .here hskip htoken⟩
    · obtain ⟨there, rest, hfinds⟩ := ih hmem
      exact ⟨there, rest, .further hskip htoken hstep hfinds⟩

end
end Source
end RuleTree
