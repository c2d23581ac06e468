import RuleTree.Expression.Spel
import RuleTree.Proofs.RoundTrip.Expression

/-! # SpEL conditions come back

The trees of `Spel.repertoire` are read back from their SpEL conditions
(`reread_spel`).  Keywords count in any case, so no name may be one.  A list is
asked whether it contains a field, which takes tokens of its own: the point
behind the list is no part of a name.  As in CEL a range is two comparisons in
parentheses, and a root that is not negated has none.
-/
namespace RuleTree
namespace Spel
open Source Expression

/-! ### The class of trees -/

/-- Identifiers with points between them, and not a keyword in any case. -/
structure IsName (name : String) : Prop where
  shape : IsDotted name.toList
  noKeyword : ∀ k, Terminal.keyword k ∈ lexicon.terminals →
    name.toList.map Char.toLower ≠ k.letters

/-- What conditions tell apart. -/
def repertoire : Repertoire where
  IsName := IsName
  listed h := h.shape.listed
  IsDistinct := Node.IsTold

/-! ### Words -/

theorem startsName_of_startsIdentifier {c : Char} (h : startsIdentifier c = true) :
    startsName c = true := by
  rcases Bool.or_eq_true_iff.mp h with h | h <;> simp [startsName, isFoldedLetter, h]

theorem continuesName_of_continuesIdentifier {c : Char} (h : continuesIdentifier c = true) :
    continuesName c = true := by
  rcases Bool.or_eq_true_iff.mp h with h | h
  · simp [continuesName, startsName_of_startsIdentifier h]
  · simp [continuesName, h]

/-- A dotted name is read up to its end. -/
theorem wordExtent?_name {c : Char} {cs rest : List Char} (h : IsDotted (c :: cs))
    (hrest : Stops rest) : wordExtent? .name c (cs ++ rest) = some cs.length := by
  have hstops : ∀ d ∈ [' ', ',', ')', ']', '}', '('], continuesName d = false ∧ d ≠ '.' :=
    List.all_iff_forall_prop.mp (by decide)
  exact dottedExtent?_append (fun _ => startsName_of_startsIdentifier)
    (fun _ => continuesName_of_continuesIdentifier) (by decide) h
    (fun d hd => hstops d (hrest d hd)) rfl

/-- A text as a literal stands for the text. -/
theorem spells_textLiteral (s : String) :
    lexicon.Spells (Sql.textLiteral s).toList (.text (Sql.textLiteral s).toList) := by
  rw [Text.toList_textLiteral]
  refine Lexicon.spells_of_first [.name] rfl (by decide) rfl ?_ ?_ rfl
  · intro u hu rest
    obtain rfl := List.mem_singleton.mp hu
    rfl
  · intro rest hrest
    have hquote : ∀ c ∈ rest.head?, c ≠ '\'' := fun c hc he =>
      absurd (he ▸ hrest c hc) (by decide)
    exact Text.closeDoubled?_textLiteral s hquote

/-- Names, words and texts in single quotes are tokens. -/
theorem vocabulary : Vocabulary .spel lexicon textOf repertoire where
  terminals := ⟨_, rfl⟩
  extent := wordExtent?_name
  numeric c hc cs := by
    have hstart : ∀ c ∈ Value.numeric, startsName c = false ∧ c ≠ '"' ∧ c ≠ '\'' :=
      List.all_iff_forall_prop.mp (by decide)
    simp [lexicon, wordExtent?, dottedExtent?, hstart c hc]
  fold_point := by decide
  fold_word k _ := by cases k <;> decide
  name h := ⟨h.shape, fun k hk => (map_foldCase h.shape.all).symm ▸ h.noKeyword k hk⟩
  listed _ := id
  quote := spells_textLiteral
  unquote s := by
    have hquote : (Language.spel.quote s).toList =
        '\'' :: (Text.doubled '\'' s.toList ++ ['\'']) := Text.toList_textLiteral s
    rw [hquote, textOf, List.dropLast_concat, Text.replaceAll_doubled]

/-! ### Predicates -/

section
variable {field : String} {outer : List (Level Predicate)} {level : Level Predicate}

/-- A predicate that starts with a value goes on behind it. -/
theorem readFrom_left {w rest : List Char} {v : Leaf} (h : lexicon.Spells w v)
    (hrest : Stops rest) :
    readFrom grammar ⟨outer, level, .ahead⟩ (w ++ rest) =
      readFrom grammar ⟨outer, level, .inside (.afterLeft v)⟩ rest := by
  refine readFrom_ahead h (by decide) ?_ (fun t ht => ?_) hrest
  · cases v with
    | field f => cases hf : f.isQuoted <;> simp [Leaf.terminal, grammar, hf]
    | truth b => cases b <;> decide
    | _ => simp [Leaf.terminal, grammar]
  · have hbrace : t.terminal ≠ .mark .braceOpen := fun hbrace => by simp [Token.leaf?, hbrace] at ht
    simp [grammar, Partial.start?, hbrace, ht]

theorem wantsValue_values : lexicon.WantsValue values := by decide

/-- Two values with a sign between them are a comparison. -/
theorem readsTerm_comparison {w w' : List Char} {v v' : Leaf} (hv : lexicon.Spells w v)
    {op : Operator} (hop : op.isComparison = true) (hv' : lexicon.Spells w' v') :
    ReadsTerm grammar (w ++ ' ' :: ((Dialect.celSpelling op).toList ++ ' ' :: w'))
      (.predicate (.comparison v (Dialect.celSpelling op).toList v')) := by
  have hsign : ∀ rest, lexicon.Lexes (behindLeft v) (Dialect.celSpelling op).toList (' ' :: rest)
      .comparator := by
    intro rest
    cases op <;> cases hop <;> cases v <;> exact ⟨_, _, rfl, rfl, rfl⟩
  have hvalue : ∀ t, t.leaf? = some v' → Partial.step? (.afterSign v
      (Dialect.celSpelling op).toList) t =
        some (.done (.comparison v (Dialect.celSpelling op).toList v')) :=
    fun t ht => by simp [Partial.step?, ht]
  exact readsTerm_operation (readFrom_left hv) hsign rfl hv' wantsValue_values hvalue

/-- Arguments in parentheses are read up to the closing one. -/
theorem isRow_inCall (name : List Char) :
    IsRow grammar .parenClose ')' (.inCall name) fun items => .done (.call name items) where
  step _ _ := rfl
  opened := (by decide : lexicon.WantsValue (.mark .parenClose :: values))
  comma _ := wantsValue_values
  lexesComma _ last _ := by cases last <;> exact ⟨_, _, rfl, rfl, rfl⟩
  lexesClose _ last _ := by cases last <;> exact ⟨_, _, rfl, rfl, rfl⟩
  stops := stops_parenClose
  ne_comma := by decide

/-- A name of a field and a method, and an argument in parentheses, are a call. -/
theorem readsTerm_call {name w : List Char} {v : Leaf}
    (hname : lexicon.Spells name (.field ⟨false, name⟩)) (hv : lexicon.Spells w v) :
    ReadsTerm grammar (name ++ (['('] ++ (w ++ [')']))) (.predicate (.call name [v])) :=
  readsTerm_application (readFrom_left hname) (fun _ => ⟨_, _, rfl, rfl, rfl⟩) rfl
    (isRow_inCall name) hv

/-- Items in braces are read up to the closing one. -/
theorem isRow_inList :
    IsRow grammar .braceClose '}' .inList fun items => .more (.afterList items) where
  step _ _ := rfl
  opened := (by decide : lexicon.WantsValue (.mark .braceClose :: values))
  comma _ := wantsValue_values
  lexesComma _ last _ := by cases last <;> exact ⟨_, _, rfl, rfl, rfl⟩
  lexesClose _ last _ := by cases last <;> exact ⟨_, _, rfl, rfl, rfl⟩
  stops _ := by simp [Stops]
  ne_comma := by decide

/-- The method that a list is asked by. -/
def listMethod : List Char := ['c', 'o', 'n', 't', 'a', 'i', 'n', 's']

/-- The method of a list is a name behind a point of its own. -/
theorem readFrom_listMethod (items : List Leaf) (rest : List Char) :
    readFrom grammar ⟨outer, level, .inside (.afterList items)⟩
        (['.'] ++ (listMethod ++ (['('] ++ rest))) =
      readFrom grammar ⟨outer, level, .inside (.inListCall items listMethod)⟩ rest := by
  have hdot : ∀ rest, lexicon.Lexes [.mark .dot] ['.'] rest (.mark .dot) :=
    fun rest => ⟨_, _, rfl, rfl, rfl⟩
  have hopen : lexicon.Lexes [.mark .parenOpen] ['('] rest (.mark .parenOpen) :=
    ⟨_, _, rfl, rfl, rfl⟩
  have hname : lexicon.Lexes [.name] listMethod (['('] ++ rest) .name := by
    have hdotted : IsDotted listMethod := .identifier (by decide)
    have hextent : lexicon.extent? .name 'c' (listMethod.tail ++ '(' :: rest) =
        some listMethod.tail.length := wordExtent?_name hdotted (by simp [Stops])
    have htoken := lexicon.token?_of_first [] rfl (by simp)
      (List.mem_singleton_self Terminal.name) hextent
    exact ⟨_, _, rfl, rfl, htoken⟩
  refine Eq.trans (readFrom_more (hdot _) rfl) ?_
  refine Eq.trans (readFrom_more hname rfl) ?_
  exact readFrom_more hopen rfl

/-- Items in braces that are asked whether they contain a field are a
membership. -/
theorem readsTerm_membership (hname : IsName field) {ws : List (List Char)} {vs : List Leaf}
    (hvs : List.Forall₂ lexicon.Spells ws vs) (hne : ws ≠ []) :
    ReadsTerm grammar
      (['{'] ++ ([',', ' '].intercalate ws ++ '}' :: (['.'] ++ (listMethod ++ (['('] ++
        (field.toList ++ [')']))))))
      (.predicate (.listCall vs listMethod (.field ⟨false, field.toList⟩))) := by
  intro outer level rest hrest
  have hbrace : ∀ rest, lexicon.Lexes grammar.atStart ['{'] rest (.mark .braceOpen) :=
    fun rest => ⟨_, _, rfl, rfl, rfl⟩
  have hclose : lexicon.Lexes (behindRight (.field ⟨false, field.toList⟩)) [')'] rest
      (.mark .parenClose) := ⟨_, _, rfl, rfl, rfl⟩
  have hargument : ∀ t, t.leaf? = some (.field ⟨false, field.toList⟩) →
      Partial.step? (.inListCall vs listMethod) t =
        some (.more (.afterArgument vs listMethod (.field ⟨false, field.toList⟩))) :=
    fun t ht => by simp [Partial.step?, ht]
  have htext : ['{'] ++ ([',', ' '].intercalate ws ++ '}' :: (['.'] ++ (listMethod ++ (['('] ++
      (field.toList ++ [')']))))) ++ rest = ['{'] ++ ([',', ' '].intercalate ws ++ '}' :: (['.'] ++
        (listMethod ++ (['('] ++ (field.toList ++ ([')'] ++ rest)))))) := by simp
  rw [htext]
  refine Eq.trans (readFrom_lexes (hbrace _) rfl) ?_
  refine Eq.trans (readFrom_items isRow_inList hvs hne _) ?_
  refine Eq.trans (readFrom_listMethod vs _) ?_
  refine Eq.trans (readFrom_value_more (vocabulary.spells_name hname) wantsValue_values hargument
    (stops_parenClose _)) ?_
  exact readFrom_done hclose rfl

end

/-! ### Memberships -/

section
variable {source : ValueSource} {field : String}

/-- Items in braces that are asked whether they contain a field stand for the
membership of the field. -/
theorem stands_in (hname : IsName field) {items : List Value} (hne : items ≠ [])
    (h : ∀ v ∈ items, repertoire.IsItem source v) :
    Stands grammar meaning
      (Language.spel.list (items.map (written .spel source)) ++ ".contains(" ++ field ++ ")").toList
      (.rule (Rule.ofSource source field .isIn (.list items))) := by
  obtain ⟨vs, hspells, hvs⟩ := vocabulary.denotes_all h
  have hclause : predicateClause (.listCall vs listMethod (.field ⟨false, field.toList⟩)) =
      .ok (.rule (Rule.ofSource source field .isIn (.list items))) := by
    have hname' : operand (.field ⟨false, field.toList⟩) = .field field := by
      simp [operand, Leaf.operand, nameOf]
    have hvs' : vs.map operand = items.map (.ofSource source) := hvs
    rw [predicateClause, if_neg (by decide), hname', hvs']
    simp only [Clause.listRule_ofSource hne h]
    rfl
  have htext : (Language.spel.list (items.map (written .spel source)) ++ ".contains(" ++ field ++
      ")").toList = ['{'] ++ ([',', ' '].intercalate
        ((items.map (written .spel source)).map String.toList) ++ '}' :: (['.'] ++ (listMethod ++
          (['('] ++ (field.toList ++ [')']))))) := by
    simp [Language.spel, Text.toList_joinWith, listMethod]
  exact htext ▸ Stands.predicate ⟨'{', _, rfl, by decide⟩
    (readsTerm_membership hname hspells (by simpa using hne)) hclause

end

/-! ### Groups -/

theorem lexes_behind {w rest : List Char} {terminal : Terminal}
    (hright : ∀ v, lexicon.Lexes (behindRight v) w rest terminal)
    (hterm : lexicon.Lexes behindTerm w rest terminal) (t : Term Predicate)
    (outer : List (Level Predicate)) (level : Level Predicate) :
    grammar.lexicon.Lexes (Progress.wanted grammar ⟨outer, level, .behind t⟩) w rest terminal := by
  cases ht : t.ending? with
  | none => simpa [Progress.wanted, ht, grammar] using hterm
  | some p =>
    cases p with
    | comparison left operator right | matching left right =>
      simpa [Progress.wanted, ht, grammar, behindPredicate] using hright right
    | call | listCall => simpa [Progress.wanted, ht, grammar, behindPredicate] using hterm

theorem punctuates : Punctuates grammar ['!'] (separator .spel) where
  opens outer level rest := readFrom_lexes (w := ['(']) ⟨_, _, rfl, rfl, rfl⟩ rfl
  closes outer around level t rest := by
    refine readFrom_lexes (w := [')']) (t := .mark .parenClose) (lexes_behind ?_ ?_ t _ _) rfl
    · intro v
      cases v <;> exact ⟨_, _, rfl, rfl, rfl⟩
    · exact ⟨_, _, rfl, rfl, rfl⟩
  joins j outer level t rest := by
    cases j with
    | and =>
      refine readFrom_spaced (w := ['a', 'n', 'd']) (t := .keyword .and)
        (lexes_behind ?_ ?_ t _ _) rfl
      · intro v
        cases v <;> exact ⟨_, _, rfl, rfl, rfl⟩
      · exact ⟨_, _, rfl, rfl, rfl⟩
    | or =>
      refine readFrom_spaced (w := ['o', 'r']) (t := .keyword .or) (lexes_behind ?_ ?_ t _ _) rfl
      · intro v
        cases v <;> exact ⟨_, _, rfl, rfl, rfl⟩
      · exact ⟨_, _, rfl, rfl, rfl⟩
  negates outer level rest := readFrom_lexes (w := ['!']) ⟨_, _, rfl, rfl, rfl⟩ rfl
  starts := ⟨'!', _, rfl, by decide⟩
  separates j rest := by cases j <;> exact stops_space _

/-- A membership stands for itself, negated or not. -/
theorem stands_membership {source : ValueSource} {field : String} {op : Operator}
    (hname : IsName field) (hop : op.isMembership = true) {items : List Value} (hne : items ≠ [])
    (h : ∀ v ∈ items, repertoire.IsItem source v) :
    Stands grammar meaning (Language.spel.membership field
        (Language.spel.list (items.map (written .spel source))) (op = .notIn)).toList
      (.rule (Rule.ofSource source field op (.list items))) := by
  have hin := stands_in hname hne h
  cases op <;> cases hop
  case isIn => exact hin
  case notIn =>
    have hnegated := Stands.negation punctuates hin rfl
    rw [Clause.invertRule_ofSource] at hnegated
    simpa [Language.spel, Operator.inverse] using hnegated

/-! ### Round trip -/

/-- SpEL is read. -/
theorem speaks : Speaks .spel grammar meaning textOf repertoire where
  toVocabulary := vocabulary
  dialect := Or.inr rfl
  distinct h := h
  punctuates := punctuates
  reads_comparison hv hop hv' := by
    refine ⟨_, readsTerm_comparison hv hop hv', ?_⟩
    rw [show meaning.predicate = predicateClause from rfl, predicateClause, String.ofList_toList]
    rfl
  reads_call hname hv := ⟨_, readsTerm_call hname hv, rfl⟩
  membership hname hop hne h := stands_membership hname hop hne h
  negateRule _ := rfl
  negateGroup _ _ _ := rfl

end Spel

/-- **Round trip.**  Every tree that SpEL conditions tell apart from others is read
back from its condition. -/
theorem reread_spel {t : Node} (h : t.Canonical Spel.repertoire true) :
    Query.reread "spel" t = .ok t.withoutIds := by
  obtain ⟨output, hrun, hread⟩ := Spel.speaks.echo.roundTrip h
  cases h with
  | group id =>
    have hwrite := congrArg (Except.map Query.Output.value) (Expression.format_of_run hrun)
    exact Query.reread_eq rfl rfl rfl hwrite rfl hread

theorem reread_spel_specimen :
    Query.reread "spel" Node.specimen = .ok Node.specimen.withoutIds := by
  have hname : ∀ name ∈ ["name", "age", "rank", "grade", "level"], Spel.IsName name := by
    intro name hmem
    simp only [List.mem_cons, List.not_mem_nil, or_false] at hmem
    rcases hmem with rfl | rfl | rfl | rfl | rfl <;>
      exact ⟨.identifier (by decide), fun k _ => by cases k <;> decide⟩
  exact reread_spel (Node.canonical_specimen
    (fun name h => hname name (List.mem_append_left ["grade", "level"] h))
    (fun name h => hname name (List.mem_append_right ["name", "age", "rank"] h)) trivial
    Node.isTold_pair)

end RuleTree
