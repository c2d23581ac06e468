import RuleTree.Proofs.Tokens

/-! # Scanning

A text is read in one go, but what is read of it can be told apart: the row of its tokens,
each of them looked for among the terminals that may come where reading stands (`Scans`), and
the formula of that row (`Grammar.formula?`).  A text is read as a formula exactly if it is
scanned to a row of tokens with that formula (`readFormula_eq_ok_iff`).
-/
namespace RuleTree
namespace Source
variable {S P : Type} {g : Grammar S P}

/-- The tokens of a text from where reading stands: each is what is found there among the
terminals that are looked for, behind blanks. -/
inductive Scans (g : Grammar S P) : Progress S P → List Char → List Token → Prop where
  | atEnd {progress : Progress S P} {cs : List Char} :
      skipSpaces cs = [] → Scans g progress cs []
  | token {progress next : Progress S P} {cs rest : List Char} {c : Char} {token : Token}
      {tokens : List Token} :
      skipSpaces cs = c :: rest → g.lexicon.token? (progress.wanted g) c rest = some token →
      progress.step? g token = some next →
      Scans g next (rest.drop (token.spelling.length - 1)) tokens →
      Scans g progress cs (token :: tokens)

/-- The formula that reading ends with behind more tokens. -/
def Progress.formula? (g : Grammar S P) (progress : Progress S P) (tokens : List Token) :
    Option (Formula P) :=
  (tokens.foldlM (step? g) progress).bind finish?

theorem Progress.formula?_cons {progress next : Progress S P} {token : Token}
    (h : progress.step? g token = some next) (tokens : List Token) :
    progress.formula? g (token :: tokens) = next.formula? g tokens := by
  rw [formula?, List.foldlM_cons, h]
  rfl

theorem Scans.readFrom {progress : Progress S P} {cs : List Char} {tokens : List Token}
    (h : Scans g progress cs tokens) {f : Formula P} (hf : progress.formula? g tokens = some f) :
    readFrom g progress cs = .ok f := by
  induction h with
  | @atEnd progress cs hskip =>
    have hfinish : progress.finish? = some f := hf
    rw [readFrom_eq, hskip]
    simp [hfinish]
  | @token progress next cs rest c token tokens hskip htoken hstep _ ih =>
    rw [Progress.formula?_cons hstep] at hf
    rw [readFrom_eq, hskip]
    simpa [htoken, hstep] using ih hf

theorem exists_scans {progress : Progress S P} {cs : List Char} {f : Formula P}
    (h : readFrom g progress cs = .ok f) :
    ∃ tokens, Scans g progress cs tokens ∧ progress.formula? g tokens = some f := by
  -- the rest behind a token is shorter than the text
  induction hn : cs.length using Nat.strong_induction_on generalizing progress cs with
  | h n ih =>
    subst hn
    rw [readFrom_eq] at h
    split at h
    · rename_i hskip
      split at h
      · rename_i f' hfinish
        obtain rfl := Except.ok.inj h
        exact ⟨[], .atEnd hskip, hfinish⟩
      · cases h
    · rename_i c rest hskip
      split at h
      · cases h
      · rename_i token htoken
        split at h
        · cases h
        · rename_i next hstep
          have hshort : (rest.drop (token.spelling.length - 1)).length < cs.length := by
            have hle := length_skipSpaces_le cs
            rw [hskip, List.length_cons] at hle
            rw [List.length_drop]
            omega
          obtain ⟨tokens, hscans, hformula⟩ := ih _ hshort h rfl
          exact ⟨token :: tokens, .token hskip htoken hstep hscans,
            (Progress.formula?_cons hstep tokens).trans hformula⟩

theorem readFrom_of_readFormula {dialect : Dialect} {source : List Char} {f : Formula P}
    (h : readFormula g dialect source = .ok f) : readFrom g {} source = .ok f := by
  unfold readFormula at h
  split at h
  · rename_i f' hread
    obtain rfl := Except.ok.inj h
    exact hread
  · cases h

/-- **Scanning.**  A text is read as the formula of the tokens that it is scanned to. -/
theorem readFormula_eq_ok_iff {dialect : Dialect} {source : List Char} {f : Formula P} :
    readFormula g dialect source = .ok f ↔
      ∃ tokens, Scans g {} source tokens ∧ g.formula? tokens = some f := by
  constructor
  · exact fun h => exists_scans (readFrom_of_readFormula h)
  · rintro ⟨tokens, hscans, hf⟩
    rw [readFormula, hscans.readFrom hf]

end Source
end RuleTree
