import RuleTree.Expression.Cel
import RuleTree.Proofs.RoundTrip.Expression

/-! # CEL conditions come back

The trees of `Cel.repertoire` are read back from their CEL conditions
(`reread_cel`).  A name is an identifier or several with points between them, so
the call of a text method is one token with its field.  A condition says less
than a tree in three places: `not in` is the negation of a membership in
parentheses, a range is two comparisons in parentheses, and a root that is not
negated has no parentheses.
-/
namespace RuleTree
namespace Cel
open Source Expression

/-! ### The class of trees -/

/-- Identifiers with points between them, and not a keyword. -/
structure IsName (name : String) : Prop where
  shape : IsDotted name.toList
  noKeyword : ∀ k, Terminal.keyword k ∈ lexicon.terminals → name.toList ≠ k.letters

/-- What conditions tell apart: a negated group of a single membership is
written as the opposite membership. -/
def repertoire : Repertoire where
  IsName := IsName
  listed h := h.shape.listed
  IsDistinct isRoot negated j children :=
    Node.IsTold isRoot negated j children ∧ (negated = true → ¬Node.IsLoneMembership children)

/-! ### Words -/

/-- A text as a literal, character by character. -/
theorem toList_quote (s : String) :
    (Language.cel.quote s).toList = '"' :: (Text.backslashed '"' s.toList ++ ['"']) := by
  simp [Language.cel, Text.toList_escaped]

/-- A text as a literal stands for the text. -/
theorem spells_quote (s : String) :
    lexicon.Spells (Language.cel.quote s).toList (.text (Language.cel.quote s).toList) := by
  rw [toList_quote]
  refine Lexicon.spells_of_first [.name] rfl (by decide) rfl ?_ ?_ rfl
  · intro u hu rest
    obtain rfl := List.mem_singleton.mp hu
    rfl
  · intro rest _
    have hclose := Text.closeEscaped?_backslashed (by decide : '"' ≠ '\\') (by decide) s.toList rest
    rw [List.append_assoc, List.singleton_append]
    simpa [Lexicon.extent?, lexicon, wordExtent?] using hclose

/-- The text between the quotes of a literal, without their escapes. -/
def textOf (spelling : List Char) : List Char := Text.unescaped spelling.tail.dropLast

/-- Names, words and texts in double quotes are tokens. -/
theorem vocabulary : Vocabulary .cel lexicon textOf repertoire where
  terminals := ⟨_, rfl⟩
  extent h hrest := by
    have hstops : ∀ d ∈ [' ', ',', ')', ']', '}', '('], continuesName d = false ∧ d ≠ '.' :=
      List.all_iff_forall_prop.mp (by decide)
    exact dottedExtent?_append (fun _ => id) (fun _ => id) rfl h
      (fun d hd => hstops d (hrest d hd)) rfl
  numeric c hc cs := by
    have hstart : ∀ c ∈ Value.numeric, startsName c = false ∧ c ≠ '"' ∧ c ≠ '\'' :=
      List.all_iff_forall_prop.mp (by decide)
    simp [lexicon, wordExtent?, dottedExtent?, hstart c hc]
  fold_point := rfl
  fold_word k _ := List.map_id _
  name h := ⟨h.shape, fun k hk => (List.map_id _).symm ▸ h.noKeyword k hk⟩
  listed _ := id
  quote := spells_quote
  unquote s := by
    rw [textOf, toList_quote, List.tail_cons, List.dropLast_concat,
      Text.unescaped_backslashed (by decide) (by decide)]

/-! ### Predicates -/

section
variable {field : String} {outer : List (Level Predicate)} {level : Level Predicate}

/-- A predicate that starts with a value goes on behind it. -/
theorem readFrom_left {w rest : List Char} {v : Leaf} (h : lexicon.Spells w v)
    (hrest : Stops rest) :
    readFrom grammar ⟨outer, level, .ahead⟩ (w ++ rest) =
      readFrom grammar ⟨outer, level, .inside (.afterLeft v)⟩ rest := by
  refine readFrom_ahead h (by decide) ?_ (fun t ht => by simp [grammar, ht]) hrest
  cases v with
  | field f => cases hf : f.isQuoted <;> simp [Leaf.terminal, grammar, hf]
  | _ => simp [Leaf.terminal, grammar]

theorem wantsValue_values : lexicon.WantsValue values := by decide

/-- Two values with a sign between them are a comparison. -/
theorem readsTerm_comparison {w w' : List Char} {v v' : Leaf} (hv : lexicon.Spells w v)
    {op : Operator} (hop : op.isComparison = true) (hv' : lexicon.Spells w' v') :
    ReadsTerm grammar (w ++ ' ' :: ((Dialect.celSpelling op).toList ++ ' ' :: w'))
      (.predicate (.comparison v (Dialect.celSpelling op).toList v')) := by
  have hsign : ∀ rest, lexicon.Lexes (behindLeft v) (Dialect.celSpelling op).toList (' ' :: rest)
      .comparator := by
    intro rest
    cases op <;> cases hop <;> cases v <;> exact ⟨_, _, rfl, rfl, rfl⟩
  have hvalue : ∀ t, t.leaf? = some v' → Partial.step? (.afterSign v
      (Dialect.celSpelling op).toList) t =
        some (.done (.comparison v (Dialect.celSpelling op).toList v')) :=
    fun t ht => by simp [Partial.step?, ht]
  exact readsTerm_operation (readFrom_left hv) hsign rfl hv' wantsValue_values hvalue

/-- Items in brackets are read up to the closing one. -/
theorem isRow_inList (left : Leaf) :
    IsRow grammar .bracketClose ']' (.inList left) fun items => .done (.membership left items) where
  step _ _ := rfl
  opened := (by decide : lexicon.WantsValue (.mark .bracketClose :: values))
  comma _ := wantsValue_values
  lexesComma _ last _ := by cases last <;> exact ⟨_, _, rfl, rfl, rfl⟩
  lexesClose _ last _ := by cases last <;> exact ⟨_, _, rfl, rfl, rfl⟩
  stops _ := by simp [Stops]
  ne_comma := by decide

/-- A field and items in brackets are a membership. -/
theorem readsTerm_membership (hname : IsName field) {ws : List (List Char)} {vs : List Leaf}
    (hvs : List.Forall₂ lexicon.Spells ws vs) (hne : ws ≠ []) :
    ReadsTerm grammar
      (field.toList ++ ' ' :: (['i', 'n'] ++ ' ' ::
        (['['] ++ ([',', ' '].intercalate ws ++ [']']))))
      (.predicate (.membership (.field ⟨false, field.toList⟩) vs)) := by
  intro outer level rest hrest
  have hin : ∀ rest, lexicon.Lexes (behindLeft (.field ⟨false, field.toList⟩)) ['i', 'n']
      (' ' :: rest) (.keyword .isIn) := fun rest => ⟨_, _, rfl, rfl, rfl⟩
  have hopen : ∀ rest, lexicon.Lexes [.mark .bracketOpen] ['['] rest (.mark .bracketOpen) :=
    fun rest => ⟨_, _, rfl, rfl, rfl⟩
  rw [List.append_assoc, List.cons_append,
    readFrom_left (vocabulary.spells_name hname) (stops_space _), readFrom_space,
    List.append_assoc]
  refine Eq.trans (readFrom_more (hin _) rfl) ?_
  rw [List.cons_append, readFrom_space, List.append_assoc]
  refine Eq.trans (readFrom_more (hopen _) rfl) ?_
  rw [List.append_assoc]
  exact readFrom_items (isRow_inList _) hvs hne rest

/-- Arguments in parentheses are read up to the closing one. -/
theorem isRow_inCall (name : List Char) :
    IsRow grammar .parenClose ')' (.inCall name) fun items => .done (.call name items) where
  step _ _ := rfl
  opened := (by decide : lexicon.WantsValue (.mark .parenClose :: values))
  comma _ := wantsValue_values
  lexesComma _ last _ := by cases last <;> exact ⟨_, _, rfl, rfl, rfl⟩
  lexesClose _ last _ := by cases last <;> exact ⟨_, _, rfl, rfl, rfl⟩
  stops := stops_parenClose
  ne_comma := by decide

/-- A name of a field and a method, and an argument in parentheses, are a call. -/
theorem readsTerm_call {name w : List Char} {v : Leaf}
    (hname : lexicon.Spells name (.field ⟨false, name⟩)) (hv : lexicon.Spells w v) :
    ReadsTerm grammar (name ++ (['('] ++ (w ++ [')']))) (.predicate (.call name [v])) :=
  readsTerm_application (readFrom_left hname) (fun _ => ⟨_, _, rfl, rfl, rfl⟩) rfl
    (isRow_inCall name) hv

end

/-! ### Memberships -/

section
variable {source : ValueSource} {field : String}

/-- The complement of a membership in parentheses is the opposite one. -/
theorem negate_membership (source : ValueSource) (field : String) (v : Value) :
    negate (.group false (.rule (Rule.ofSource source field .isIn v)) []) =
      .ok (.rule (Rule.ofSource source field .notIn v)) := by
  have hop : (Rule.ofSource source field .isIn v).operator? = some .isIn :=
    Operator.ofValue?_toValue .isIn
  rw [negate, if_pos (by rw [hop]; rfl)]
  exact congrArg (Except.ok ∘ Clause.rule) (Clause.invertRule_ofSource source field .isIn v)

/-- A field and items in brackets stand for their membership. -/
theorem stands_in (hname : IsName field) {items : List Value} (hne : items ≠ [])
    (h : ∀ v ∈ items, repertoire.IsItem source v) :
    Stands grammar meaning
      (field ++ " in " ++ Language.cel.list (items.map (written .cel source))).toList
      (.rule (Rule.ofSource source field .isIn (.list items))) := by
  obtain ⟨vs, hspells, hvs⟩ := vocabulary.denotes_all h
  have hclause : predicateClause (.membership (.field ⟨false, field.toList⟩) vs) =
      .ok (.rule (Rule.ofSource source field .isIn (.list items))) := by
    have hname' : operand (.field ⟨false, field.toList⟩) = .field field := by
      simp [operand, Leaf.operand, nameOf]
    have hvs' : vs.map operand = items.map (.ofSource source) := hvs
    rw [predicateClause, hname', hvs']
    simp only [Clause.listRule_ofSource hne h]
    rfl
  have htext : (field ++ " in " ++ Language.cel.list (items.map (written .cel source))).toList =
      field.toList ++ ' ' :: (['i', 'n'] ++ ' ' :: (['['] ++ ([',', ' '].intercalate
        ((items.map (written .cel source)).map String.toList) ++ [']']))) := by
    simp [Language.cel, Text.toList_joinWith]
  exact htext ▸ Stands.predicate (hname.shape.starts _)
    (readsTerm_membership hname hspells (by simpa using hne)) hclause

end

/-! ### Groups -/

theorem lexes_behind {w rest : List Char} {terminal : Terminal}
    (hright : ∀ v, lexicon.Lexes (behindRight v) w rest terminal)
    (hterm : lexicon.Lexes behindTerm w rest terminal) (t : Term Predicate)
    (outer : List (Level Predicate)) (level : Level Predicate) :
    grammar.lexicon.Lexes (Progress.wanted grammar ⟨outer, level, .behind t⟩) w rest terminal := by
  cases ht : t.ending? with
  | none => simpa [Progress.wanted, ht, grammar] using hterm
  | some p =>
    cases p with
    | comparison left operator right =>
      simpa [Progress.wanted, ht, grammar, behindPredicate] using hright right
    | membership | call => simpa [Progress.wanted, ht, grammar, behindPredicate] using hterm

theorem punctuates : Punctuates grammar ['!'] (separator .cel) where
  opens outer level rest := readFrom_lexes (w := ['(']) ⟨_, _, rfl, rfl, rfl⟩ rfl
  closes outer around level t rest := by
    refine readFrom_lexes (w := [')']) (t := .mark .parenClose) (lexes_behind ?_ ?_ t _ _) rfl
    · intro v
      cases v <;> exact ⟨_, _, rfl, rfl, rfl⟩
    · exact ⟨_, _, rfl, rfl, rfl⟩
  joins j outer level t rest := by
    cases j with
    | and =>
      refine readFrom_spaced (w := ['&', '&']) (t := .mark .ampersands)
        (lexes_behind ?_ ?_ t _ _) rfl
      · intro v
        cases v <;> exact ⟨_, _, rfl, rfl, rfl⟩
      · exact ⟨_, _, rfl, rfl, rfl⟩
    | or =>
      refine readFrom_spaced (w := ['|', '|']) (t := .mark .bars) (lexes_behind ?_ ?_ t _ _) rfl
      · intro v
        cases v <;> exact ⟨_, _, rfl, rfl, rfl⟩
      · exact ⟨_, _, rfl, rfl, rfl⟩
  negates outer level rest := readFrom_lexes (w := ['!']) ⟨_, _, rfl, rfl, rfl⟩ rfl
  starts := ⟨'!', _, rfl, by decide⟩
  separates j rest := by cases j <;> exact stops_space _

/-- A membership stands for itself, negated or not. -/
theorem stands_membership {source : ValueSource} {field : String} {op : Operator}
    (hname : IsName field) (hop : op.isMembership = true) {items : List Value} (hne : items ≠ [])
    (h : ∀ v ∈ items, repertoire.IsItem source v) :
    Stands grammar meaning (Language.cel.membership field
        (Language.cel.list (items.map (written .cel source))) (op = .notIn)).toList
      (.rule (Rule.ofSource source field op (.list items))) := by
  have hin := stands_in hname hne h
  cases op <;> cases hop
  case isIn => exact hin
  case notIn =>
    -- the opposite membership is written as the negation of a group
    have hgroup := Stands.group punctuates .and (.cons hin .nil)
    have hnegated := Stands.negation punctuates hgroup (negate_membership source field _)
    simpa [Language.cel] using hnegated

/-- The complement of a group is the negated group, unless it is taken for that of
a membership. -/
theorem negate_join {d : Repertoire} {j : Junction} {children : List Node} {head : Clause}
    {cs : List Clause} (hcanonical : ∀ child ∈ children, child.Canonical d false)
    (hlone : ¬Node.IsLoneMembership children)
    (hbuilds : List.Forall₂ (Clause.Builds traits) (head :: cs) (children.map Node.withoutIds)) :
    negate (Clause.join j false (head :: cs)) = .ok (Clause.join j true (head :: cs)) := by
  rw [Clause.join]
  unfold negate
  split
  case h_2 => rfl
  -- a single rule in parentheses, which comes from a single rule
  case h_1 r hgroup =>
    obtain ⟨-, rfl, hnil⟩ := Clause.group.inj hgroup
    obtain rfl := List.map_eq_nil_iff.mp hnil
    obtain ⟨n, ns, hn, hns, hchildren⟩ := List.forall₂_cons_left_iff.mp hbuilds
    obtain rfl := List.forall₂_nil_left_iff.mp hns
    obtain ⟨child, rest, rfl, hchild, hrest⟩ := List.map_eq_cons_iff.mp hchildren
    obtain rfl := List.map_eq_nil_iff.mp hrest
    obtain ⟨s, rfl, rfl⟩ := Node.eq_rule_of_withoutIds (hchild.trans hn.eq_rule)
    obtain @⟨source, field, op, v, id, -, -⟩ := (hcanonical _ List.mem_cons_self).of_rule
    have hop : (Rule.withoutId { Rule.ofSource source field op v with id := id }).operator? =
        some op := Operator.ofValue?_toValue op
    have hne : op ≠ .isIn := by
      rintro rfl
      exact hlone rfl
    simp [hop, hne, Clause.join]

/-! ### Round trip -/

/-- CEL is read. -/
theorem speaks : Speaks .cel grammar meaning textOf repertoire where
  toVocabulary := vocabulary
  dialect := Or.inl rfl
  distinct h := h.1
  punctuates := punctuates
  reads_comparison hv hop hv' := by
    refine ⟨_, readsTerm_comparison hv hop hv', ?_⟩
    rw [show meaning.predicate = predicateClause from rfl, predicateClause, String.ofList_toList]
    rfl
  reads_call hname hv := ⟨_, readsTerm_call hname hv, rfl⟩
  membership hname hop hne h := stands_membership hname hop hne h
  negateRule _ := rfl
  negateGroup hcanonical hdistinct hbuilds := negate_join hcanonical (hdistinct.2 rfl) hbuilds

end Cel

/-- **Round trip.**  Every tree that CEL conditions tell apart from others is read
back from its condition. -/
theorem reread_cel {t : Node} (h : t.Canonical Cel.repertoire true) :
    Query.reread "cel" t = .ok t.withoutIds := by
  obtain ⟨output, hrun, hread⟩ := Cel.speaks.echo.roundTrip h
  cases h with
  | group id =>
    have hwrite := congrArg (Except.map Query.Output.value) (Expression.format_of_run hrun)
    exact Query.reread_eq rfl rfl rfl hwrite rfl hread

theorem reread_cel_specimen :
    Query.reread "cel" Node.specimen = .ok Node.specimen.withoutIds := by
  have hname : ∀ name ∈ ["name", "age", "rank", "grade", "level"], Cel.IsName name := by
    intro name hmem
    simp only [List.mem_cons, List.not_mem_nil, or_false] at hmem
    rcases hmem with rfl | rfl | rfl | rfl | rfl <;>
      exact ⟨.identifier (by decide), fun k _ => by cases k <;> decide⟩
  refine reread_cel (Node.canonical_specimen
    (fun name h => hname name (List.mem_append_left ["grade", "level"] h))
    (fun name h => hname name (List.mem_append_right ["name", "age", "rank"] h)) trivial
    fun h => ⟨Node.isTold_pair h, fun _ => ?_⟩)
  simp [Node.IsLoneMembership]

end RuleTree
