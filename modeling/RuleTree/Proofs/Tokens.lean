import Mathlib.Data.List.Forall2
import RuleTree.Proofs.Integers
import RuleTree.Source.Reading

/-! # Tokens in their place

Reading goes on behind a token that may come next (`readFrom_lexes`), whatever
stands behind it.  `Lexicon.Spells l w v` says that the text `w` is a token for
the leaf `v` wherever a value may come, provided that something follows which
ends it (`Stops`): a name that is no keyword (`spells_name`), a keyword for a
value (`spells_word`), a literal that nothing before it is taken for
(`spells_of_first`) and an integer (`spells_int`) are.  Values with commas
between them are read one by one (`readFrom_items`).
-/
namespace RuleTree
namespace Source
variable {S P : Type} {g : Grammar S P} {l : Lexicon}

/-! ### One token -/

/-- Nothing follows, or what ends a value. -/
def Stops (rest : List Char) : Prop := ∀ c ∈ rest.head?, c ∈ [' ', ',', ')', ']', '}', '(']

theorem isSpace_eq_false {p : Char → Bool} (hp : ∀ c ∈ [' ', '\t', '\x0c', '\r', '\n'], p c = false)
    {c : Char} (hc : p c = true) : isSpace c = false := by
  have hne : ∀ d ∈ [' ', '\t', '\x0c', '\r', '\n'], c ≠ d := by
    rintro d hd rfl
    rw [hp c hd] at hc
    cases hc
  simp only [isSpace, Bool.or_eq_false_iff, decide_eq_false_iff_not]
  exact ⟨⟨⟨⟨hne _ (by simp), hne _ (by simp)⟩, hne _ (by simp)⟩, hne _ (by simp)⟩,
    hne _ (by simp)⟩

/-- The text is a token of a terminal, whatever is wanted, with the rest behind
it. -/
def Lexicon.Lexes (l : Lexicon) (wanted : List Terminal) (w rest : List Char)
    (t : Terminal) : Prop :=
  ∃ c cs, w = c :: cs ∧ isSpace c = false ∧ l.token? wanted c (cs ++ rest) = some ⟨t, w⟩

theorem readFrom_eq (progress : Progress S P) (cs : List Char) :
    readFrom g progress cs =
      match skipSpaces cs with
      | [] => match progress.finish? with
        | some f => .ok f
        | none => .error .atEnd
      | c :: rest =>
        match g.lexicon.token? (progress.wanted g) c rest with
        | none => .error (Stop.ofCharacter g.lexicon c rest)
        | some token =>
          match progress.step? g token with
          | none => .error (.atToken token.spelling (c :: rest))
          | some next => readFrom g next (rest.drop (token.spelling.length - 1)) := by
  rw [readFrom]
  dsimp only
  generalize skipSpaces cs = spaces
  cases spaces <;> rfl

/-- Blanks before a token do not count. -/
theorem readFrom_space (progress : Progress S P) (cs : List Char) :
    readFrom g progress (' ' :: cs) = readFrom g progress cs := by
  have hskip : skipSpaces (' ' :: cs) = skipSpaces cs := rfl
  rw [readFrom_eq, hskip, ← readFrom_eq]

/-- Reading goes on behind a token that may come next. -/
theorem readFrom_lexes {progress next : Progress S P} {w rest : List Char} {t : Terminal}
    (hlex : g.lexicon.Lexes (progress.wanted g) w rest t)
    (hstep : progress.step? g ⟨t, w⟩ = some next) :
    readFrom g progress (w ++ rest) = readFrom g next rest := by
  obtain ⟨c, cs, rfl, hspace, htoken⟩ := hlex
  have hskip : skipSpaces (c :: (cs ++ rest)) = c :: (cs ++ rest) := by
    simp [skipSpaces, hspace]
  rw [List.cons_append, readFrom_eq, hskip]
  simp [htoken, hstep]

/-- It does so behind a word with blanks around it. -/
theorem readFrom_spaced {progress next : Progress S P} {w rest : List Char} {t : Terminal}
    (hlex : g.lexicon.Lexes (progress.wanted g) w (' ' :: rest) t)
    (hstep : progress.step? g ⟨t, w⟩ = some next) :
    readFrom g progress (' ' :: (w ++ ' ' :: rest)) = readFrom g next rest := by
  rw [readFrom_space, readFrom_lexes hlex hstep, readFrom_space]

/-- At the end the formula is complete. -/
theorem readFrom_nil {progress : Progress S P} {f : Formula P}
    (h : progress.finish? = some f) : readFrom g progress [] = .ok f := by
  rw [readFrom_eq]
  simp [skipSpaces, h]

/-! ### The first terminal with an extent -/

theorem Lexicon.token?_of_first {wanted : List Terminal} (before : List Terminal)
    {after : List Terminal} {t : Terminal} {c : Char} {cs : List Char} {n : Nat}
    (hterminals : l.terminals = before ++ t :: after)
    (hbefore : ∀ u ∈ before, l.extent? u c cs = none) (ht : t ∈ wanted)
    (hextent : l.extent? t c cs = some n) :
    l.token? wanted c cs =
      some ⟨if t = .name then l.nameTerminal wanted (c :: cs.take n) else t, c :: cs.take n⟩ := by
  have hnone : before.findSome? (fun u => if u ∈ wanted then
      (l.extent? u c cs).map fun n => (⟨if u = .name then l.nameTerminal wanted
        (c :: cs.take n) else u, c :: cs.take n⟩ : Token) else none) = none := by
    refine List.findSome?_eq_none_iff.mpr fun u hu => ?_
    simp [hbefore u hu]
  rw [token?, hterminals, List.findSome?_append, hnone, Option.none_or, List.findSome?_cons]
  simp [ht, hextent]

/-- Keywords differ in their letters. -/
theorem Keyword.letters_injective {k k' : Keyword} (h : k.letters = k'.letters) : k = k' := by
  cases k <;> cases k' <;> first | rfl | exact absurd h (by decide)

/-- A whole name that is no keyword which may come next is a name. -/
theorem Lexicon.nameTerminal_of_ne {wanted : List Terminal} {w : List Char}
    (h : ∀ k, Terminal.keyword k ∈ wanted → w.map l.fold ≠ k.letters) :
    l.nameTerminal wanted w = .name := by
  unfold nameTerminal
  extract_lets isKeyword
  rw [List.find?_eq_none.mpr, Option.getD_none]
  intro t ht
  cases t with
  | keyword k => simpa [isKeyword] using h k ht
  | _ => simp [isKeyword]

/-- A whole name that is a keyword which may come next is the keyword. -/
theorem Lexicon.nameTerminal_of_eq {wanted : List Terminal} {w : List Char} {k : Keyword}
    (hk : Terminal.keyword k ∈ wanted) (h : w.map l.fold = k.letters) :
    l.nameTerminal wanted w = .keyword k := by
  unfold nameTerminal
  extract_lets isKeyword
  cases hfind : wanted.find? isKeyword with
  | none => simpa [isKeyword, h] using List.find?_eq_none.mp hfind _ hk
  | some t =>
    have ht := List.find?_some hfind
    cases t with
    | keyword k' =>
      have hletters : w.map l.fold = k'.letters := by simpa [isKeyword] using ht
      rw [Option.getD_some, Keyword.letters_injective (hletters.symm.trans h)]
    | _ => simp [isKeyword] at ht

/-! ### Values -/

/-- A value may come, and everything that may come is known. -/
def Lexicon.WantsValue (l : Lexicon) (wanted : List Terminal) : Prop :=
  (∀ t ∈ Terminal.name :: literals, t ∈ wanted) ∧ ∀ t ∈ wanted, t ∈ l.terminals

instance (l : Lexicon) (wanted : List Terminal) : Decidable (l.WantsValue wanted) :=
  inferInstanceAs (Decidable (_ ∧ _))

/-- Wherever a value may come the text is a token for the leaf, whatever it is
that ends it. -/
def Lexicon.Spells (l : Lexicon) (w : List Char) (v : Leaf) : Prop :=
  ∀ wanted rest, l.WantsValue wanted → Stops rest →
    ∃ t, l.Lexes wanted w rest t ∧ (⟨t, w⟩ : Token).leaf? = some v

theorem stops_nil : Stops [] := by simp [Stops]

theorem stops_space (rest : List Char) : Stops (' ' :: rest) := by simp [Stops]

theorem stops_parenClose (rest : List Char) : Stops (')' :: rest) := by simp [Stops]

theorem Stops.endsHere {rest : List Char} (h : Stops rest) : Numeral.EndsHere rest := by
  intro c hc
  have hmark : ∀ c ∈ [' ', ',', ')', ']', '}', '('],
      Text.isDigit c = false ∧ c ≠ '.' ∧ c ≠ 'e' ∧ c ≠ 'E' :=
    List.all_iff_forall_prop.mp (by decide)
  exact hmark c (h c hc)

namespace Lexicon
variable {before after : List Terminal} {c : Char} {cs : List Char}

/-- A whole name is a token, of a name or of a keyword. -/
theorem lexes_name (hl : l.terminals = .name :: after) (hspace : isSpace c = false)
    (hextent : ∀ rest, Stops rest → l.wordExtent? .name c (cs ++ rest) = some cs.length)
    {wanted : List Terminal} {rest : List Char} (hwanted : l.WantsValue wanted)
    (hrest : Stops rest) :
    l.Lexes wanted (c :: cs) rest (l.nameTerminal wanted (c :: cs)) := by
  refine ⟨c, cs, rfl, hspace, ?_⟩
  have htoken := l.token?_of_first [] hl (by simp)
    (hwanted.1 .name List.mem_cons_self) (hextent rest hrest)
  simpa using htoken

/-- A name that is no keyword stands for a field. -/
theorem spells_name (hl : l.terminals = .name :: after) (hspace : isSpace c = false)
    (hextent : ∀ rest, Stops rest → l.wordExtent? .name c (cs ++ rest) = some cs.length)
    (hkeyword : ∀ k, Terminal.keyword k ∈ l.terminals → (c :: cs).map l.fold ≠ k.letters) :
    l.Spells (c :: cs) (.field ⟨false, c :: cs⟩) := by
  intro wanted rest hwanted hrest
  have hname : l.nameTerminal wanted (c :: cs) = .name :=
    nameTerminal_of_ne fun k hk => hkeyword k (hwanted.2 _ hk)
  exact ⟨.name, hname ▸ lexes_name hl hspace hextent hwanted hrest, rfl⟩

/-- A word for a value stands for it. -/
theorem spells_word (hl : l.terminals = .name :: after) (hspace : isSpace c = false)
    (hextent : ∀ rest, Stops rest → l.wordExtent? .name c (cs ++ rest) = some cs.length)
    {k : Keyword} {v : Leaf} (hk : Terminal.keyword k ∈ literals)
    (hletters : (c :: cs).map l.fold = k.letters)
    (hleaf : (⟨.keyword k, c :: cs⟩ : Token).leaf? = some v) : l.Spells (c :: cs) v := by
  intro wanted rest hwanted hrest
  have hname : l.nameTerminal wanted (c :: cs) = .keyword k :=
    nameTerminal_of_eq (hwanted.1 _ (List.mem_cons_of_mem _ hk)) hletters
  exact ⟨.keyword k, hname ▸ lexes_name hl hspace hextent hwanted hrest, hleaf⟩

/-- A literal is a token if nothing that is looked for before it is there. -/
theorem spells_of_first (before : List Terminal) {t : Terminal} {v : Leaf}
    (hl : l.terminals = before ++ t :: after) (ht : t ∈ literals) (hspace : isSpace c = false)
    (hbefore : ∀ u ∈ before, ∀ rest, l.extent? u c (cs ++ rest) = none)
    (hextent : ∀ rest, Stops rest → l.extent? t c (cs ++ rest) = some cs.length)
    (hleaf : (⟨t, c :: cs⟩ : Token).leaf? = some v) : l.Spells (c :: cs) v := by
  intro wanted rest hwanted hrest
  -- only names are looked up among the keywords
  have hname : t ≠ .name := fun h => by subst h; exact absurd ht (by decide)
  refine ⟨t, ⟨c, cs, rfl, hspace, ?_⟩, hleaf⟩
  have htoken := l.token?_of_first before hl (fun u hu => hbefore u hu rest)
    (hwanted.1 t (List.mem_cons_of_mem _ ht)) (hextent rest hrest)
  simpa [hname] using htoken

/-- The text of an integer stands for it, where no word or text starts with a
digit or a sign. -/
theorem spells_int (before : List Terminal) (hl : l.terminals = before ++ .number :: after)
    (hbefore : ∀ u ∈ before, ∀ c ∈ Value.numeric, ∀ cs, l.extent? u c cs = none)
    (n : Int) : l.Spells (Value.intText n).toList (.number (Value.intText n).toList) := by
  obtain ⟨c, cs, hn⟩ := List.exists_cons_of_ne_nil (Value.intText_ne_nil n)
  have hc : c ∈ Value.numeric := Value.mem_numeric_of_mem_intText (hn ▸ List.mem_cons_self)
  have hspace : ∀ c ∈ Value.numeric, isSpace c = false := List.all_iff_forall_prop.mp (by decide)
  rw [hn]
  refine spells_of_first before hl (by decide) (hspace c hc)
    (fun u hu rest => hbefore u hu c hc _) ?_ rfl
  intro rest hrest
  have hread := Numeral.read?_intText n hrest.endsHere
  rw [hn, List.cons_append] at hread
  simp [extent?, numberExtent?, hread]

end Lexicon

/-- The text is one token for an operand. -/
def Lexicon.Denotes (l : Lexicon) (operand : Leaf → Operand) (s : String) (o : Operand) : Prop :=
  ∃ v, l.Spells s.toList v ∧ operand v = o

/-- Texts for operands are tokens for leaves that stand for them. -/
theorem Lexicon.exists_leaves {operand : Leaf → Operand} {items : List Value}
    {written : Value → String} {o : Value → Operand}
    (h : ∀ v ∈ items, l.Denotes operand (written v) (o v)) :
    ∃ vs, List.Forall₂ l.Spells ((items.map written).map String.toList) vs ∧
      vs.map operand = items.map o := by
  induction items with
  | nil => exact ⟨[], .nil, rfl⟩
  | cons item items ih =>
    obtain ⟨v, hspells, hv⟩ := h item List.mem_cons_self
    obtain ⟨vs, hall, hvs⟩ := ih fun v hv => h v (List.mem_cons_of_mem _ hv)
    exact ⟨v :: vs, .cons hspells hall, by rw [List.map_cons, List.map_cons, hv, hvs]⟩

/-! ### Rows of values -/

/-- Reading goes on behind a step of a predicate. -/
def Progress.after (outer : List (Level P)) (level : Level P) : Step S P → Progress S P
  | .more s => ⟨outer, level, .inside s⟩
  | .done p => .complete outer level (.predicate p)

/-- Reading goes on behind a token inside a predicate. -/
theorem readFrom_inside {outer : List (Level P)} {level : Level P} {s : S} {w rest : List Char}
    {t : Terminal} {next : Step S P} (hlex : g.lexicon.Lexes (g.inside s) w rest t)
    (hstep : g.step? s ⟨t, w⟩ = some next) :
    readFrom g ⟨outer, level, .inside s⟩ (w ++ rest) =
      readFrom g (.after outer level next) rest := by
  refine readFrom_lexes hlex ?_
  simp only [Progress.step?, hstep]
  cases next <;> rfl

section
variable {outer : List (Level P)} {level : Level P} {s next : S} {p : P} {w rest : List Char}
variable {t : Terminal} {v : Leaf}

/-- A token inside a predicate leaves more to come. -/
theorem readFrom_more (hlex : g.lexicon.Lexes (g.inside s) w rest t)
    (hstep : g.step? s ⟨t, w⟩ = some (.more next)) :
    readFrom g ⟨outer, level, .inside s⟩ (w ++ rest) =
      readFrom g ⟨outer, level, .inside next⟩ rest := readFrom_inside hlex hstep

/-- A token inside a predicate completes it. -/
theorem readFrom_done (hlex : g.lexicon.Lexes (g.inside s) w rest t)
    (hstep : g.step? s ⟨t, w⟩ = some (.done p)) :
    readFrom g ⟨outer, level, .inside s⟩ (w ++ rest) =
      readFrom g (.complete outer level (.predicate p)) rest := readFrom_inside hlex hstep

/-- A value inside a predicate leaves more to come. -/
theorem readFrom_value_more (hspells : g.lexicon.Spells w v)
    (hwanted : g.lexicon.WantsValue (g.inside s))
    (hstep : ∀ t, t.leaf? = some v → g.step? s t = some (.more next)) (hrest : Stops rest) :
    readFrom g ⟨outer, level, .inside s⟩ (w ++ rest) =
      readFrom g ⟨outer, level, .inside next⟩ rest := by
  obtain ⟨t, hlex, hleaf⟩ := hspells _ _ hwanted hrest
  exact readFrom_more hlex (hstep _ hleaf)

/-- A value inside a predicate completes it. -/
theorem readFrom_value_done (hspells : g.lexicon.Spells w v)
    (hwanted : g.lexicon.WantsValue (g.inside s))
    (hstep : ∀ t, t.leaf? = some v → g.step? s t = some (.done p)) (hrest : Stops rest) :
    readFrom g ⟨outer, level, .inside s⟩ (w ++ rest) =
      readFrom g (.complete outer level (.predicate p)) rest := by
  obtain ⟨t, hlex, hleaf⟩ := hspells _ _ hwanted hrest
  exact readFrom_done hlex (hstep _ hleaf)

end

/-- A predicate that starts with a value is read from there. -/
theorem readFrom_ahead {outer : List (Level P)} {level : Level P} {s : S} {w rest : List Char}
    {v : Leaf} (hspells : g.lexicon.Spells w v) (hwanted : g.lexicon.WantsValue g.atStart)
    (hnegations : v.terminal ∉ g.negations)
    (hstart : ∀ t, t.leaf? = some v → g.start? t = some s) (hrest : Stops rest) :
    readFrom g ⟨outer, level, .ahead⟩ (w ++ rest) =
      readFrom g ⟨outer, level, .inside s⟩ rest := by
  obtain ⟨t, hlex, hleaf⟩ := hspells _ _ hwanted hrest
  have hterminal : v.terminal = t := Token.terminal_of_leaf? hleaf
  have hparen : t ≠ .mark .parenOpen := fun ht => by subst ht; cases hleaf
  rw [hterminal] at hnegations
  refine readFrom_lexes hlex ?_
  simp [Progress.step?, hnegations, hparen, hstart _ hleaf]

/-- Where values with commas between them are read up to a mark. -/
structure IsRow (g : Grammar S P) (close : Mark) (c : Char) (wrap : Items → S)
    (finish : List Leaf → Step S P) : Prop where
  step : ∀ items t, g.step? (wrap items) t = (items.step? close t).map fun
    | .more items => .more (wrap items)
    | .done vs => finish vs
  opened : g.lexicon.WantsValue (g.inside (wrap .opened))
  comma : ∀ before, g.lexicon.WantsValue (g.inside (wrap (.comma before)))
  lexesComma : ∀ before last rest,
    g.lexicon.Lexes (g.inside (wrap (.item before last))) [','] rest (.mark .comma)
  lexesClose : ∀ before last rest,
    g.lexicon.Lexes (g.inside (wrap (.item before last))) [c] rest (.mark close)
  stops : ∀ rest, Stops (c :: rest)
  ne_comma : close ≠ .comma

section
variable {close : Mark} {c : Char} {wrap : Items → S} {finish : List Leaf → Step S P}
variable {outer : List (Level P)} {level : Level P}

/-- From wherever a value may come, the values are read up to the mark. -/
theorem IsRow.readFrom_from (h : IsRow g close c wrap finish) {ws : List (List Char)}
    {vs : List Leaf} (hspells : List.Forall₂ g.lexicon.Spells ws vs) (hne : ws ≠ [])
    {items : Items} {before : List Leaf} (hwanted : g.lexicon.WantsValue (g.inside (wrap items)))
    (hitems : ∀ t v, t.leaf? = some v → items.step? close t = some (.more (.item before v)))
    (rest : List Char) :
    readFrom g ⟨outer, level, .inside (wrap items)⟩
        ([',', ' '].intercalate ws ++ c :: rest) =
      readFrom g (.after outer level (finish (before.reverse ++ vs))) rest := by
  induction hspells generalizing items before with
  | nil => exact absurd rfl hne
  | @cons w v ws vs hw hws ih =>
    cases hws with
    | nil =>
      obtain ⟨t, hlex, hleaf⟩ := hw _ _ hwanted (h.stops rest)
      have hvalue : g.step? (wrap items) ⟨t, w⟩ = some (.more (wrap (.item before v))) := by
        rw [h.step, hitems _ _ hleaf]; rfl
      have hclose : g.step? (wrap (.item before v)) ⟨.mark close, [c]⟩ =
          some (finish (before.reverse ++ [v])) := by
        rw [h.step]; simp [Items.step?]
      rw [List.intercalate_singleton, readFrom_inside hlex hvalue]
      exact readFrom_inside (h.lexesClose _ _ rest) hclose
    | @cons next v' ws vs hnext hws =>
      -- a comma ends the value, and another one is wanted behind it
      have hstops : Stops ([','] ++ ' ' :: ([',', ' '].intercalate (next :: ws) ++ c :: rest)) := by
        simp [Stops]
      obtain ⟨t, hlex, hleaf⟩ := hw _ _ hwanted hstops
      have hvalue : g.step? (wrap items) ⟨t, w⟩ = some (.more (wrap (.item before v))) := by
        rw [h.step, hitems _ _ hleaf]; rfl
      have hcomma : g.step? (wrap (.item before v)) ⟨.mark .comma, [',']⟩ =
          some (.more (wrap (.comma (v :: before)))) := by
        rw [h.step]
        simp [Items.step?, Ne.symm h.ne_comma]
      have hnext : ∀ t v', t.leaf? = some v' →
          (Items.comma (v :: before)).step? close t = some (.more (.item (v :: before) v')) :=
        fun t v' hv => by simp [Items.step?, hv]
      have hrest := ih (List.cons_ne_nil _ _) (h.comma (v :: before)) hnext
      rw [List.intercalate_cons_cons, List.append_assoc, List.append_assoc]
      refine (readFrom_inside hlex hvalue).trans ?_
      refine (readFrom_inside (h.lexesComma before v _) hcomma).trans ?_
      rw [Progress.after, readFrom_space, hrest, List.reverse_cons, List.append_assoc]
      rfl

/-- Values with commas between them are read up to the mark. -/
theorem readFrom_items (h : IsRow g close c wrap finish) {ws : List (List Char)}
    {vs : List Leaf} (hspells : List.Forall₂ g.lexicon.Spells ws vs) (hne : ws ≠ [])
    (rest : List Char) :
    readFrom g ⟨outer, level, .inside (wrap .opened)⟩
        ([',', ' '].intercalate ws ++ c :: rest) =
      readFrom g (.after outer level (finish vs)) rest := by
  have hopened : ∀ t v, t.leaf? = some v →
      Items.opened.step? close t = some (.more (.item [] v)) := by
    intro t v hv
    have hmark : t.terminal ≠ .mark close := fun ht => by simp [Token.leaf?, ht] at hv
    simp [Items.step?, hmark, hv]
  exact h.readFrom_from hspells hne h.opened hopened rest

end

end Source
end RuleTree
