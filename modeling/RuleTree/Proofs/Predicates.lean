import RuleTree.Proofs.Occurrences

/-! # The predicates of a formula

A formula is read from tokens, so what tokens are like shows in its predicates.  If every token
that the words of a language can be keeps a property of half read predicates, and completes only
predicates with another (`Grammar.Makes`), then every step of reading keeps the two
(`Progress.Holds.step`), and so every predicate of a formula that is read has the latter
(`Grammar.Makes.of_readFormula`).
-/
namespace RuleTree
namespace Source
variable {S P : Type}

/-! ### Predicates -/

mutual
/-- The predicates of a term from left to right. -/
def Term.predicates : Term P → List P
  | .predicate p => [p]
  | .negation t => t.predicates
  | .group head tail => head.predicates ++ turnPredicates tail

/-- The predicates of terms with connectives before them. -/
def Term.turnPredicates : List (Junction × Term P) → List P
  | [] => []
  | (_, t) :: rest => t.predicates ++ turnPredicates rest
end

/-- The predicates of a formula from left to right. -/
def Formula.predicates (f : Formula P) : List P := (Term.group f.head f.tail).predicates

theorem Term.predicates_negated (n : Nat) (t : Term P) :
    (t.negated n).predicates = t.predicates := by
  induction n with
  | zero => rfl
  | succ n ih => rw [negated, predicates, ih]

/-- A formula has the predicates of the terms that it is closed from. -/
theorem Formula.predicates_close (done : List (Term P × Junction)) (head : Term P)
    (tail : List (Junction × Term P)) : (Formula.close done head tail).predicates =
      done.reverse.flatMap (fun e => e.1.predicates) ++
        (head.predicates ++ Term.turnPredicates tail) := by
  induction done generalizing head tail with
  | nil => rfl
  | cons e done ih =>
    obtain ⟨t, junction⟩ := e
    rw [close, ih, Term.turnPredicates]
    simp

/-! ### Tokens -/

/-- The tokens of a language. -/
def Lexicon.IsToken (l : Lexicon) (t : Token) : Prop :=
  ∃ wanted rest, l.Lexes wanted t.spelling rest t.terminal

/-- A step ends where something half read has `I` or something complete has `Q`. -/
def Step.Holds (I : S → Prop) (Q : P → Prop) : Step S P → Prop
  | .more s => I s
  | .done p => Q p

/-- The tokens of a language keep `I` while a predicate is read, and complete predicates with
`Q`. -/
structure Grammar.Makes (g : Grammar S P) (I : S → Prop) (Q : P → Prop) : Prop where
  start {t : Token} {s : S} : g.lexicon.IsToken t → g.start? t = some s → I s
  step {t : Token} {s : S} {next : Step S P} : g.lexicon.IsToken t → I s →
    g.step? s t = some next → next.Holds I Q

/-- The predicates that are complete have `Q`, and the one that is half read has `I`. -/
structure Progress.Holds (I : S → Prop) (Q : P → Prop) (progress : Progress S P) : Prop where
  levels : ∀ level ∈ progress.level :: progress.outer, ∀ e ∈ level.done, ∀ p ∈ e.1.predicates, Q p
  inside : ∀ s, progress.position = .inside s → I s
  behind : ∀ t, progress.position = .behind t → ∀ p ∈ t.predicates, Q p

section
variable {g : Grammar S P} {I : S → Prop} {Q : P → Prop}

/-- A complete term has such predicates, however often it is negated. -/
theorem Progress.Holds.complete {outer : List (Level P)} {level : Level P} {t : Term P}
    (hlevels : ∀ l ∈ level :: outer, ∀ e ∈ l.done, ∀ p ∈ e.1.predicates, Q p)
    (ht : ∀ p ∈ t.predicates, Q p) :
    (Progress.complete outer level t : Progress S P).Holds I Q := by
  refine ⟨List.forall_mem_cons.mpr (List.forall_mem_cons.mp hlevels), nofun, ?_⟩
  rintro _ ⟨⟩
  rwa [Term.predicates_negated]

theorem Progress.Holds.step (hmakes : g.Makes I Q) {progress next : Progress S P}
    (h : progress.Holds I Q) {token : Token} (htoken : g.lexicon.IsToken token)
    (hstep : progress.step? g token = some next) : next.Holds I Q := by
  obtain ⟨outer, level, position⟩ := progress
  obtain ⟨hlevel, houter⟩ := List.forall_mem_cons.mp h.levels
  cases position with
  | ahead =>
    unfold step? at hstep
    dsimp only at hstep
    split at hstep
    · obtain rfl := Option.some.inj hstep
      exact ⟨List.forall_mem_cons.mpr ⟨hlevel, houter⟩, nofun, nofun⟩
    · split at hstep
      · obtain rfl := Option.some.inj hstep
        exact ⟨List.forall_mem_cons.mpr ⟨by simp, h.levels⟩, nofun, nofun⟩
      · obtain ⟨s, hs, rfl⟩ := Option.map_eq_some_iff.mp hstep
        refine ⟨h.levels, ?_, nofun⟩
        rintro _ ⟨⟩
        exact hmakes.start htoken hs
  | inside s =>
    obtain ⟨result, hresult, rfl⟩ := Option.map_eq_some_iff.mp hstep
    have hnext := hmakes.step htoken (h.inside s rfl) hresult
    cases result with
    | more s' =>
      refine ⟨h.levels, ?_, nofun⟩
      rintro _ ⟨⟩
      exact hnext
    | done p =>
      refine .complete h.levels ?_
      rw [Term.predicates]
      exact List.forall_mem_singleton.mpr hnext
  | behind t =>
    have ht := h.behind t rfl
    unfold step? at hstep
    dsimp only at hstep
    split at hstep
    · obtain rfl := Option.some.inj hstep
      refine ⟨List.forall_mem_cons.mpr ⟨?_, houter⟩, nofun, nofun⟩
      exact List.forall_mem_cons.mpr ⟨ht, hlevel⟩
    · split at hstep
      · split at hstep
        · cases hstep
        · rename_i around outer
          obtain rfl := Option.some.inj hstep
          refine .complete houter ?_
          -- the group has the predicates of the terms in the parentheses
          change ∀ p ∈ (Formula.close level.done t []).predicates, Q p
          rw [Formula.predicates_close, Term.turnPredicates, List.append_nil]
          refine List.forall_mem_append.mpr ⟨List.forall_mem_flatMap.mpr fun e he => ?_, ht⟩
          exact hlevel e (List.mem_reverse.mp he)
      · cases hstep

theorem Progress.Holds.run (hmakes : g.Makes I Q) {tokens : List Token}
    (htokens : ∀ t ∈ tokens, g.lexicon.IsToken t) {progress : Progress S P}
    (h : progress.Holds I Q) {f : Formula P} (hf : progress.formula? g tokens = some f) :
    ∀ p ∈ f.predicates, Q p := by
  induction tokens generalizing progress with
  | nil =>
    have hfinish : progress.finish? = some f := hf
    unfold finish? at hfinish
    split at hfinish
    · rename_i t hposition _
      obtain rfl := Option.some.inj hfinish
      rw [Formula.predicates_close, Term.turnPredicates, List.append_nil]
      refine List.forall_mem_append.mpr ⟨List.forall_mem_flatMap.mpr fun e he => ?_,
        h.behind t hposition⟩
      exact h.levels _ List.mem_cons_self e (List.mem_reverse.mp he)
    · cases hfinish
  | cons token tokens ih =>
    obtain ⟨htoken, hrest⟩ := List.forall_mem_cons.mp htokens
    cases hstep : progress.step? g token with
    | none =>
      rw [Progress.formula?, List.foldlM_cons, hstep] at hf
      cases hf
    | some next =>
      rw [formula?_cons hstep] at hf
      exact ih hrest (h.step hmakes htoken hstep) hf

/-- **Predicates of a source.**  What the tokens of a language make holds of every predicate of a
formula that is read. -/
theorem Grammar.Makes.of_readFormula (h : g.Makes I Q) {dialect : Dialect} {source : List Char}
    {f : Formula P} (hread : readFormula g dialect source = .ok f) : ∀ p ∈ f.predicates, Q p := by
  obtain ⟨tokens, hscans, hf⟩ := readFormula_eq_ok_iff.mp hread
  have htokens : ∀ t ∈ tokens, g.lexicon.IsToken t := fun t ht =>
    let ⟨_, _, hfinds⟩ := hscans.exists_finds ht
    ⟨_, _, hfinds.lexes⟩
  have hstart : ({} : Progress S P).Holds I Q := ⟨by simp, nofun, nofun⟩
  exact hstart.run h htokens hf

end
end Source
end RuleTree
