import RuleTree.Proofs.NumberTokens
import RuleTree.Proofs.Occurrences
import RuleTree.Proofs.QuotedNames

/-! # Where keywords end

SQL and SpEL take keywords in any case and say nothing of where they end.  Where a name may come
as well, the longest name is taken, so a keyword there is a whole word.  Where no name may come,
the letters of a keyword are the keyword whatever stands behind them
(`WordSyntax.lexes_keyword_iff`): in `a = 1 andy = 2` the name `andy` is split
(`WordSyntax.keyword_ends_split`).

So the words for truth values are whole words wherever they stand, those of SpEL for null and for
negation too, and so is the `in` of SQL, which a parenthesis has to follow
(`WordSyntax.keyword_ends`).
-/
namespace RuleTree
open Source

/-! ### Letters of keywords -/

namespace Source

/-- What stands for a lower case letter is a letter. -/
theorem isFoldedLetter_of_foldCase {c : Char} (h : 'a' ≤ foldCase c ∧ foldCase c ≤ 'z') :
    isFoldedLetter c = true := by
  unfold foldCase at h
  split at h
  · next hc => subst hc; decide
  split at h
  · next hc => subst hc; decide
  split at h
  · next hc => rcases Bool.or_eq_true_iff.mp hc with hc | hc <;>
      exact (of_decide_eq_true hc) ▸ (by decide)
  · unfold Char.toLower at h
    simp only [isFoldedLetter, isLetter, Bool.or_eq_true, Bool.and_eq_true, decide_eq_true_eq]
    split at h
    · next hupper => exact Or.inl (Or.inr hupper)
    · exact Or.inl (Or.inl h)

theorem Keyword.forall_letters (k : Keyword) : ∀ c ∈ k.letters, 'a' ≤ c ∧ c ≤ 'z' :=
  List.all_iff_forall_prop.mp (by cases k <;> decide)

theorem isFoldedLetter_of_letters {k : Keyword} {w : List Char} (h : w.map foldCase = k.letters) :
    ∀ c ∈ w, isFoldedLetter c = true := by
  intro c hc
  refine isFoldedLetter_of_foldCase (k.forall_letters _ ?_)
  rw [← h]
  exact List.mem_map_of_mem hc

/-- No keyword is the beginning of another. -/
theorem Keyword.eq_of_prefix {k k' : Keyword} (h : k.letters <+: k'.letters) : k = k' := by
  revert h
  cases k <;> cases k' <;> decide

theorem isSpace_of_isFoldedLetter {c : Char} (h : isFoldedLetter c = true) : isSpace c = false :=
  isSpace_eq_false (List.all_iff_forall_prop.mp (by decide)) h

theorem ne_of_isFoldedLetter {c d : Char} (h : isFoldedLetter c = true)
    (hd : isFoldedLetter d = false) : c ≠ d :=
  fun he => by rw [he, hd] at h; exact Bool.false_ne_true h

/-- A class of characters without the blanks and the opening parenthesis. -/
theorem not_blank_or_paren {p : Char → Bool}
    (hp : ∀ d ∈ [' ', '\t', '\x0c', '\r', '\n', '('], p d = false) {c : Char} (hc : p c = true) :
    isSpace c = false ∧ c ≠ '(' := by
  refine ⟨isSpace_eq_false (fun d hd => hp d (List.mem_append_left ['('] hd)) hc, ?_⟩
  rintro rfl
  rw [hp '(' (by simp)] at hc
  cases hc

theorem startsNumeral_of_isFoldedLetter {c : Char} (h : isFoldedLetter c = true) :
    startsNumeral c = false := by
  by_contra hnumeral
  rw [(not_starts (Bool.eq_true_of_not_eq_false hnumeral)).1] at h
  cases h

/-- There is no number where none starts. -/
theorem numberExtent?_eq_none {c : Char} (h : startsNumeral c = false) (cs : List Char) :
    numberExtent? c cs = none := by
  rw [numberExtent?, Option.map_eq_none_iff]
  cases hread : Numeral.read? (c :: cs) with
  | none => rfl
  | some read =>
    obtain ⟨lead, hlead, hspells⟩ := Numeral.exists_spells_of_read? hread
    obtain ⟨d, ds, rfl, hd⟩ := exists_startsNumeral hspells
    obtain rfl := (List.cons.inj hlead).1
    rw [h] at hd
    cases hd

/-- What starts with fixed characters has the first of them. -/
theorem head?_of_fixedExtent? {fold : Char → Char} {characters cs : List Char} {c : Char} {n : Nat}
    (h : fixedExtent? fold characters c cs = some n) : characters.head? = some (fold c) := by
  obtain ⟨hall, -⟩ := Option.ite_none_right_eq_some.mp h
  rw [← hall]
  rfl

end Source

/-! ### What is looked for -/

namespace Source
variable {S P : Type}

/-- All that may be looked for is what the grammar says of the places where a token may stand. -/
theorem Progress.wanted_mem {g : Grammar S P} {rows : List (List Terminal)}
    (hstart : g.atStart ∈ rows) (hinside : ∀ s, g.inside s ∈ rows)
    (hbehind : ∀ p, g.behind p ∈ rows) (hgroup : g.behindGroup ∈ rows)
    (progress : Progress S P) : progress.wanted g ∈ rows := by
  obtain ⟨outer, level, position⟩ := progress
  cases position with
  | ahead => exact hstart
  | inside s => exact hinside s
  | behind t =>
    cases hending : t.ending? with
    | none => simpa [wanted, hending] using hgroup
    | some p => simpa [wanted, hending] using hbehind p

end Source

namespace Sql

/-- What is looked for at some place of a condition. -/
def lookups : List (List Terminal) :=
  [grammar.atStart, values, .mark .parenClose :: values, behindLeaf (.field ⟨false, []⟩),
    behindLeaf .null, behindTerm, [.keyword .like, .keyword .isIn, .keyword .between],
    [.mark .parenOpen], [.keyword .not, .keyword .nullValue], [.keyword .nullValue]]

theorem behindLeaf_mem_lookups (v : Leaf) : behindLeaf v ∈ lookups := by
  cases v <;> simp [lookups, behindLeaf]

theorem wanted_mem_lookups : ∀ p : Progress Partial Predicate, p.wanted grammar ∈ lookups := by
  refine Progress.wanted_mem (by simp [lookups]) (fun s => ?_) (fun p => ?_)
    (by simp [lookups, grammar])
  · change insidePredicate s ∈ lookups
    cases s with
    | afterLeft v | afterLow _ _ v => exact behindLeaf_mem_lookups v
    | inList _ _ items =>
      cases items with
      | item _ last => exact behindLeaf_mem_lookups last
      | _ => simp [insidePredicate, inList, lookups]
    | _ => simp [insidePredicate, lookups]
  · change behindPredicate p ∈ lookups
    cases p with
    | comparison _ _ v | like _ _ v | range _ _ _ v => exact behindLeaf_mem_lookups v
    | _ => simp [behindPredicate, lookups]

/-- A parenthesis is looked for behind `in`. -/
theorem exists_afterIn {p next : Progress Partial Predicate} {w : List Char}
    (h : p.step? grammar ⟨.keyword .isIn, w⟩ = some next) :
    ∃ outer level s, next = ⟨outer, level, .inside s⟩ ∧ grammar.inside s = [.mark .parenOpen] := by
  obtain ⟨outer, level, position⟩ := p
  cases position with
  | ahead => cases h
  | behind t => cases h
  | inside s =>
    obtain ⟨step, hstep, hnext⟩ := Option.map_eq_some_iff.mp h
    -- only behind a field, with or without `not`, is there a step
    cases s with
    | afterLeft v =>
      cases v with
      | field f => cases hstep; exact ⟨outer, level, .afterIn f false, hnext.symm, rfl⟩
      | _ => cases hstep
    | afterNot f => cases hstep; exact ⟨outer, level, .afterIn f true, hnext.symm, rfl⟩
    | inList _ _ items => cases items <;> cases hstep
    | _ => cases hstep

end Sql

namespace Spel

/-- What is looked for at some place of a condition. -/
def lookups : List (List Terminal) :=
  [grammar.atStart, Expression.values, .mark .parenClose :: Expression.values,
    .mark .braceClose :: Expression.values, behindLeft (.field ⟨false, []⟩), behindLeft .null,
    behindItem, behindTerm, [.mark .dot], [.name], [.mark .parenOpen]]

theorem behindLeft_mem_lookups (v : Leaf) : behindLeft v ∈ lookups := by
  cases v <;> simp [lookups, behindLeft]

theorem behindRight_mem_lookups (v : Leaf) : behindRight v ∈ lookups := by
  cases v <;> simp [lookups, behindLeft, behindRight]

theorem inItems_mem_lookups {close : Mark} (h : .mark close :: Expression.values ∈ lookups)
    (items : Items) : inItems close items ∈ lookups := by
  cases items with
  | opened => exact h
  | item _ last => exact behindRight_mem_lookups last
  | comma _ => simp [inItems, lookups]

theorem wanted_mem_lookups : ∀ p : Progress Partial Predicate, p.wanted grammar ∈ lookups := by
  refine Progress.wanted_mem (by simp [lookups]) (fun s => ?_) (fun p => ?_)
    (by simp [lookups, grammar])
  · change insidePredicate s ∈ lookups
    cases s with
    | afterLeft v => exact behindLeft_mem_lookups v
    | afterArgument _ _ v => exact behindRight_mem_lookups v
    | inCall _ items => exact inItems_mem_lookups (by simp [lookups]) items
    | inList items => exact inItems_mem_lookups (by simp [lookups]) items
    | _ => simp [insidePredicate, lookups]
  · change behindPredicate p ∈ lookups
    cases p with
    | comparison _ _ v | matching _ v => exact behindRight_mem_lookups v
    | _ => simp [behindPredicate, lookups]

end Spel

/-! ### Languages with words -/

/-- Whether an identifier character of SQL follows, a letter, a digit, an underscore, a point or
a dollar sign. -/
def Sql.carriesOn (rest : List Char) : Bool := rest.head?.any continuesName

/-- Whether an identifier character of SpEL follows, a letter, a digit or an underscore, or a
point with one more segment. -/
def Spel.carriesOn : List Char → Bool
  | '.' :: c :: _ => startsName c
  | c :: _ => continuesName c
  | [] => false

/-- A language with keywords in any case. -/
structure WordSyntax where
  {State Predicate : Type}
  dialect : Dialect
  grammar : Grammar State Predicate
  /-- Whether a name goes on with a text. -/
  carriesOn : List Char → Bool
  /-- The keywords that are whole words wherever they stand. -/
  whole : List Keyword

namespace WordSyntax

def sql : WordSyntax :=
  ⟨.sql, Sql.grammar, Sql.carriesOn, [.trueValue, .falseValue, .isIn]⟩

def spel : WordSyntax :=
  ⟨.spel, Spel.grammar, Spel.carriesOn, [.trueValue, .falseValue, .nullValue, .not]⟩

def all : List WordSyntax := [sql, spel]

/-- Names go on with what carries them on, and nothing else but a keyword starts with a letter.
Where a keyword of the list may come, a name may, or else a parenthesis has to follow. -/
structure IsSound (t : WordSyntax) : Prop where
  fold_eq : t.grammar.lexicon.fold = foldCase
  first : ∃ after, t.grammar.lexicon.terminals = .name :: after
  extent_name : ∀ {c : Char} {cs : List Char} (rest : List Char),
    (∀ d ∈ c :: cs, isFoldedLetter d = true) →
    ∃ m, t.grammar.lexicon.wordExtent? .name c (cs ++ rest) = some (cs.length + m) ∧
      (rest.take m = [] ↔ t.carriesOn rest = false)
  extent_word : ∀ {c : Char}, isFoldedLetter c = true → ∀ u ≠ .name, ∀ cs,
    t.grammar.lexicon.wordExtent? u c cs = none
  head_sign : ∀ sign ∈ t.grammar.lexicon.comparators, sign.head?.any isFoldedLetter = false
  mem_terminals : ∀ p : Progress t.State t.Predicate, ∀ u ∈ p.wanted t.grammar,
    u ∈ t.grammar.lexicon.terminals
  head_carriesOn : ∀ c cs, t.carriesOn (c :: cs) = true → isSpace c = false ∧ c ≠ '('
  whole : ∀ k ∈ t.whole, ∀ p : Progress t.State t.Predicate, .keyword k ∈ p.wanted t.grammar →
    .name ∈ p.wanted t.grammar ∨ ∀ w next, p.step? t.grammar ⟨.keyword k, w⟩ = some next →
      ∃ outer level s, next = ⟨outer, level, .inside s⟩ ∧
        t.grammar.inside s = [.mark .parenOpen]

/-- The letters behind the first one belong to a name. -/
theorem isSound_sql : IsSound sql where
  fold_eq := rfl
  first := ⟨_, rfl⟩
  extent_name {c cs} rest h := by
    obtain ⟨hc, hcs⟩ := List.forall_mem_cons.mp h
    have hall : ∀ d ∈ cs, Sql.continuesName d = true := fun d hd => by
      simp [Sql.continuesName, Sql.startsName, hcs d hd]
    have hstart : Sql.startsName c = true := by simp [Sql.startsName, hc]
    refine ⟨(rest.takeWhile Sql.continuesName).length, ?_, ?_⟩
    · change nameExtent? Sql.startsName Sql.continuesName c (cs ++ rest) = _
      rw [nameExtent?, if_pos hstart, List.takeWhile_append_of_pos hall, List.length_append]
    · cases rest with
      | nil => simp [sql, Sql.carriesOn]
      | cons d rest => cases hd : Sql.continuesName d <;> simp [sql, Sql.carriesOn, hd]
  extent_word {c} hc u hu cs := by
    have hquotes : c ≠ '"' ∧ c ≠ '\x60' ∧ c ≠ '[' ∧ c ≠ '\'' := by
      refine ⟨?_, ?_, ?_, ?_⟩ <;> exact ne_of_isFoldedLetter hc (by decide)
    change Sql.wordExtent? u c cs = none
    cases u <;> simp_all [Sql.wordExtent?]
  head_sign := by decide
  mem_terminals p := by
    have hrows : ∀ row ∈ Sql.lookups, ∀ u ∈ row, u ∈ Sql.lexicon.terminals := by decide
    exact hrows _ (Sql.wanted_mem_lookups p)
  head_carriesOn c cs h :=
    not_blank_or_paren (p := Sql.continuesName) (List.all_iff_forall_prop.mp (by decide)) h
  whole k hk p hkeyword := by
    have hrows : ∀ row ∈ Sql.lookups, ∀ k ∈ [Keyword.trueValue, .falseValue], .keyword k ∈ row →
        .name ∈ row := by decide
    simp only [sql, List.mem_cons, List.not_mem_nil, or_false] at hk
    rcases hk with rfl | rfl | rfl
    · exact Or.inl (hrows _ (Sql.wanted_mem_lookups p) .trueValue (by simp) hkeyword)
    · exact Or.inl (hrows _ (Sql.wanted_mem_lookups p) .falseValue (by simp) hkeyword)
    · exact Or.inr fun _ _ => Sql.exists_afterIn

theorem isSound_spel : IsSound spel where
  fold_eq := rfl
  first := ⟨_, rfl⟩
  extent_name {c cs} rest h := by
    obtain ⟨hc, hcs⟩ := List.forall_mem_cons.mp h
    have hall : ∀ d ∈ cs, Spel.continuesName d = true := fun d hd => by
      simp [Spel.continuesName, Spel.startsName, hcs d hd]
    have hstart : Spel.startsName c = true := by simp [Spel.startsName, hc]
    refine ⟨segmentsLength Spel.startsName Spel.continuesName rest, ?_, ?_⟩
    · change dottedExtent? Spel.startsName Spel.continuesName c (cs ++ rest) = _
      rw [dottedExtent?, if_pos hstart, segmentsLength_append (by decide) hall, Nat.add_comm]
    · change _ ↔ Spel.carriesOn rest = false
      unfold segmentsLength Spel.carriesOn
      split
      · simp
      · split <;> simp_all
      · split <;> simp_all
  extent_word {c} hc u hu cs := by
    have hquotes : c ≠ '"' ∧ c ≠ '\'' :=
      ⟨ne_of_isFoldedLetter hc (by decide), ne_of_isFoldedLetter hc (by decide)⟩
    change Spel.wordExtent? u c cs = none
    cases u <;> simp_all [Spel.wordExtent?]
  head_sign := by decide
  mem_terminals p := by
    have hrows : ∀ row ∈ Spel.lookups, ∀ u ∈ row, u ∈ Spel.lexicon.terminals := by decide
    exact hrows _ (Spel.wanted_mem_lookups p)
  head_carriesOn c cs h := by
    refine not_blank_or_paren (p := fun c => Spel.continuesName c || c == '.')
      (List.all_iff_forall_prop.mp (by decide)) ?_
    change Spel.carriesOn (c :: cs) = true at h
    unfold Spel.carriesOn at h
    split at h
    · rename_i he
      obtain rfl := (List.cons.inj he).1
      rfl
    · rename_i d ds _ he
      obtain rfl := (List.cons.inj he).1
      simp [h]
    · cases h
  whole k hk p hkeyword := by
    have hrows : ∀ row ∈ Spel.lookups, ∀ k ∈ spel.whole, .keyword k ∈ row → .name ∈ row := by
      decide
    exact Or.inl (hrows _ (Spel.wanted_mem_lookups p) k hk hkeyword)

theorem isSound_of_mem {t : WordSyntax} (h : t ∈ all) : t.IsSound := by
  simp only [all, List.mem_cons, List.not_mem_nil, or_false] at h
  rcases h with rfl | rfl
  · exact isSound_sql
  · exact isSound_spel

section
variable {t : WordSyntax} (h : t.IsSound)
include h

/-- Besides names and the keyword itself, nothing starts with the letters of a keyword. -/
theorem IsSound.eq_of_extent? {k : Keyword} {c : Char} {cs rest : List Char}
    (hletters : (c :: cs).map foldCase = k.letters) {u : Terminal} (hu : u ≠ .name) {n : Nat}
    (hextent : t.grammar.lexicon.extent? u c (cs ++ rest) = some n) : u = .keyword k := by
  have hc := isFoldedLetter_of_letters hletters c List.mem_cons_self
  cases u with
  | name => exact absurd rfl hu
  | quotedName => cases (h.extent_word hc .quotedName hu _).symm.trans hextent
  | text => cases (h.extent_word hc .text hu _).symm.trans hextent
  | number =>
    cases (numberExtent?_eq_none (startsNumeral_of_isFoldedLetter hc) _).symm.trans hextent
  | comparator =>
    obtain ⟨sign, hsign, hfixed⟩ := List.exists_of_findSome?_eq_some hextent
    have hhead := h.head_sign sign hsign
    rw [head?_of_fixedExtent? hfixed] at hhead
    exact absurd hc (Bool.eq_false_iff.mp hhead)
  | mark m =>
    have hhead : m.characters.head?.any isFoldedLetter = false := by cases m <;> decide
    rw [head?_of_fixedExtent? hextent] at hhead
    exact absurd hc (Bool.eq_false_iff.mp hhead)
  | keyword k' =>
    -- both are beginnings of one text
    have hfound : k'.letters <+: (c :: (cs ++ rest)).map foldCase := by
      obtain ⟨hall, -⟩ := Option.ite_none_right_eq_some.mp hextent
      rw [← hall, h.fold_eq]
      exact (List.cons_prefix_cons.mpr ⟨rfl, List.take_prefix _ _⟩).map foldCase
    have hword : k.letters <+: (c :: (cs ++ rest)).map foldCase := by
      rw [← hletters]
      exact (List.cons_prefix_cons.mpr ⟨rfl, List.prefix_append _ _⟩).map foldCase
    rcases List.prefix_or_prefix_of_prefix hfound hword with hle | hle
    · rw [Keyword.eq_of_prefix hle]
    · rw [Keyword.eq_of_prefix hle]

/-- Where a name may come, a keyword is one if nothing carries it on. -/
theorem IsSound.lexes_keyword_iff_of_name {k : Keyword} {w : List Char}
    (hw : w.map foldCase = k.letters) {wanted : List Terminal} (hk : .keyword k ∈ wanted)
    (hname : .name ∈ wanted) (rest : List Char) :
    t.grammar.lexicon.Lexes wanted w rest (.keyword k) ↔ t.carriesOn rest = false := by
  obtain ⟨c, cs, rfl⟩ : ∃ c cs, w = c :: cs :=
    List.exists_cons_of_ne_nil (by rintro rfl; cases k <;> cases hw)
  have hletters := isFoldedLetter_of_letters hw
  obtain ⟨after, hterminals⟩ := h.first
  obtain ⟨m, hm, hend⟩ := h.extent_name rest hletters
  have htoken := t.grammar.lexicon.token?_of_first [] hterminals (by simp) hname hm
  rw [List.take_length_add_append, if_pos rfl] at htoken
  rw [← hend]
  constructor
  · rintro ⟨d, ds, heq, -, hfound⟩
    obtain ⟨rfl, rfl⟩ := List.cons.inj heq
    have hspelling := congrArg Token.spelling (Option.some.inj (htoken.symm.trans hfound))
    simpa using hspelling
  · intro hnil
    refine ⟨c, cs, rfl, isSpace_of_isFoldedLetter (hletters c List.mem_cons_self), ?_⟩
    rw [htoken, hnil, List.append_nil, Lexicon.nameTerminal_of_eq hk (h.fold_eq ▸ hw)]

/-- Elsewhere it is one whatever follows. -/
theorem IsSound.lexes_keyword_of_not_name {k : Keyword} {w : List Char}
    (hw : w.map foldCase = k.letters) {wanted : List Terminal} (hk : .keyword k ∈ wanted)
    (hterminal : .keyword k ∈ t.grammar.lexicon.terminals) (hname : .name ∉ wanted)
    (rest : List Char) : t.grammar.lexicon.Lexes wanted w rest (.keyword k) := by
  obtain ⟨c, cs, rfl⟩ : ∃ c cs, w = c :: cs :=
    List.exists_cons_of_ne_nil (by rintro rfl; cases k <;> cases hw)
  have hspace := isSpace_of_isFoldedLetter (isFoldedLetter_of_letters hw c List.mem_cons_self)
  have hlength : k.letters.length - 1 = cs.length := by rw [← hw]; simp
  have hextent : t.grammar.lexicon.extent? (.keyword k) c (cs ++ rest) = some cs.length := by
    change fixedExtent? _ _ _ _ = _
    rw [fixedExtent?, hlength, List.take_left' rfl, h.fold_eq, if_pos hw]
  -- something is found, and nothing else can be
  obtain ⟨token, htoken⟩ :
      ∃ token, t.grammar.lexicon.token? wanted c (cs ++ rest) = some token := by
    refine Option.isSome_iff_exists.mp (List.findSome?_isSome_iff.mpr ⟨_, hterminal, ?_⟩)
    rw [if_pos hk, hextent]
    rfl
  obtain ⟨u, -, hu, n, hn, rfl⟩ := Lexicon.exists_extent_of_token? htoken
  have hne : u ≠ .name := fun he => hname (he ▸ hu)
  obtain rfl := h.eq_of_extent? hw hne hn
  obtain rfl : cs.length = n := Option.some.inj (hextent.symm.trans hn)
  refine ⟨c, cs, rfl, hspace, ?_⟩
  rw [htoken, if_neg hne, List.take_left' rfl]

/-- **Where keywords end.**  The letters of a keyword are that keyword, unless a name may come
there as well and goes on behind them. -/
theorem IsSound.lexes_keyword_iff {k : Keyword} {w : List Char}
    (hw : w.map foldCase = k.letters) {p : Progress t.State t.Predicate}
    (hk : .keyword k ∈ p.wanted t.grammar) (rest : List Char) :
    t.grammar.lexicon.Lexes (p.wanted t.grammar) w rest (.keyword k) ↔
      (.name ∈ p.wanted t.grammar → t.carriesOn rest = false) := by
  by_cases hname : .name ∈ p.wanted t.grammar
  · rw [h.lexes_keyword_iff_of_name hw hk hname]
    simp [hname]
  · simp [hname, h.lexes_keyword_of_not_name hw hk (h.mem_terminals p _ hk) hname]

theorem IsSound.carriesOn_nil : t.carriesOn [] = false := by
  have hletter : ∀ d ∈ ['a'], isFoldedLetter d = true := List.forall_mem_singleton.mpr (by decide)
  obtain ⟨m, -, hend⟩ := h.extent_name [] hletter
  exact hend.mp List.take_nil

/-- Nothing carries a name on where a parenthesis has to follow. -/
theorem IsSound.carriesOn_of_parenthesis {outer : List (Level t.Predicate)}
    {level : Level t.Predicate} {s : t.State} (hs : t.grammar.inside s = [.mark .parenOpen])
    {rest : List Char} {f : Formula t.Predicate}
    (hread : readFrom t.grammar ⟨outer, level, .inside s⟩ rest = .ok f) :
    t.carriesOn rest = false := by
  cases rest with
  | nil => exact h.carriesOn_nil
  | cons c cs =>
    by_contra hcarries
    obtain ⟨hspace, hparen⟩ := h.head_carriesOn c cs (Bool.eq_true_of_not_eq_false hcarries)
    have hskip : skipSpaces (c :: cs) = c :: cs := by simp [skipSpaces, hspace]
    have hwanted : Progress.wanted t.grammar ⟨outer, level, .inside s⟩ = [.mark .parenOpen] := hs
    rw [readFrom_eq, hskip, hwanted] at hread
    cases htoken : t.grammar.lexicon.token? [.mark .parenOpen] c cs with
    | none => simp [htoken] at hread
    | some token =>
      obtain ⟨u, -, hu, n, hn, -⟩ := Lexicon.exists_extent_of_token? htoken
      obtain rfl := List.mem_singleton.mp hu
      exact hparen (Option.some.inj (head?_of_fixedExtent? hn)).symm

end

/-! ### Keywords in accepted sources -/

/-- In every source that is read to its end, a keyword is a whole word where a name may come as
well, and wherever it stands if it is one of those that always are.  Elsewhere it is found whatever
follows its letters. -/
theorem keyword_ends {t : WordSyntax} (ht : t ∈ all) {source : List Char}
    {f : Formula t.Predicate} (hread : readFormula t.grammar t.dialect source = .ok f)
    {p : Progress t.State t.Predicate} {k : Keyword} {w rest : List Char}
    (hfinds : t.grammar.Finds {} source p ⟨.keyword k, w⟩ rest) :
    (k ∈ t.whole ∨ .name ∈ p.wanted t.grammar → t.carriesOn rest = false) ∧
      ∀ after, t.grammar.lexicon.Lexes (p.wanted t.grammar) w after (.keyword k) ↔
        (.name ∈ p.wanted t.grammar → t.carriesOn after = false) := by
  have h := isSound_of_mem ht
  have hlexes : t.grammar.lexicon.Lexes (p.wanted t.grammar) w rest (.keyword k) := hfinds.lexes
  obtain ⟨hk, hw⟩ := hlexes.keyword
  rw [h.fold_eq] at hw
  have hends := h.lexes_keyword_iff hw hk
  refine ⟨?_, hends⟩
  rintro (hwhole | hname)
  · rcases h.whole k hwhole p hk with hname | hparen
    · exact (hends rest).mp hlexes hname
    · obtain ⟨next, hstep, hrest⟩ := hfinds.exists_step (readFrom_of_readFormula hread)
      obtain ⟨outer, level, s, rfl, hs⟩ := hparen w next hstep
      exact h.carriesOn_of_parenthesis hs hrest
  · exact (hends rest).mp hlexes hname

/-- `b in(true)`, where the keyword ends at the parenthesis. -/
theorem keyword_ends_parenthesis :
    ∃ f p rest, sql ∈ all ∧
      readFormula Sql.grammar .sql ['b', ' ', 'i', 'n', '(', 't', 'r', 'u', 'e', ')'] = .ok f ∧
      Sql.grammar.Finds {} ['b', ' ', 'i', 'n', '(', 't', 'r', 'u', 'e', ')'] p
        ⟨.keyword .isIn, ['i', 'n']⟩ rest ∧
      Sql.carriesOn rest = false := by
  have hall : sql ∈ all := List.mem_cons_self
  have hread : readFormula Sql.grammar .sql ['b', ' ', 'i', 'n', '(', 't', 'r', 'u', 'e', ')'] =
      .ok ⟨.predicate (.membership ⟨false, ['b']⟩ false [.truth true]), []⟩ :=
    readFormula_eq_ok_iff.mpr ⟨_, .token rfl rfl rfl (.token rfl rfl rfl (.token rfl rfl rfl
      (.token rfl rfl rfl (.token rfl rfl rfl (.atEnd rfl))))), rfl⟩
  refine ⟨_, _, _, hall, hread, .further rfl rfl rfl (.here rfl rfl), ?_⟩
  exact (keyword_ends hall hread (.further rfl rfl rfl (.here rfl rfl))).1 (Or.inl (by decide))

/-- In `a = 1 andy = 2` the name is split: a conjunction with a field `y` is read. -/
theorem keyword_ends_split :
    (∃ p rest, Sql.grammar.Finds {} "a = 1 andy = 2".toList p
      ⟨.keyword .and, ['a', 'n', 'd']⟩ rest ∧ Sql.carriesOn rest = true) ∧
      Query.parse (.value (.text "a = 1 andy = 2")) (.text "sql") .defaults [] =
        .ok (.group (.text "and") {} [.rule (Rule.of "a" .eq (.int 1)),
          .rule (Rule.of "y" .eq (.int 2))]) := by
  have hsource : "a = 1 andy = 2".toList =
      ['a', ' ', '=', ' ', '1', ' ', 'a', 'n', 'd', 'y', ' ', '=', ' ', '2'] := rfl
  have hread : readFormula Sql.grammar .sql "a = 1 andy = 2".toList =
      .ok ⟨.predicate (.comparison (.field ⟨false, ['a']⟩) ['='] (.number ['1'])),
        [(.and, .predicate (.comparison (.field ⟨false, ['y']⟩) ['='] (.number ['2'])))]⟩ := by
    rw [hsource]
    exact readFormula_eq_ok_iff.mpr ⟨_, .token rfl rfl rfl (.token rfl rfl rfl (.token rfl rfl rfl
      (.token rfl rfl rfl (.token rfl rfl rfl (.token rfl rfl rfl (.token rfl rfl rfl
        (.atEnd rfl))))))), rfl⟩
  constructor
  · rw [hsource]
    exact ⟨_, _, .further rfl rfl rfl (.further rfl rfl rfl (.further rfl rfl rfl (.here rfl rfl))),
      by decide⟩
  · rw [Query.parse_sql, Sql.read, readText, if_neg (by decide), hread]
    rfl

end WordSyntax
end RuleTree
