import RuleTree.Proofs.Formulas
import RuleTree.Proofs.Names
import RuleTree.Proofs.RoundTrip

/-! # SQL conditions come back

A canonical tree whose names need no quotes is the tree that is read from its SQL
condition (`reread_sql`).  Values are written as tokens of the operands that they
are (`denotes_written`), rules as predicates of SQL, one shape for each kind of
operator, and groups in parentheses, the root too, so that no two trees look
alike.  A text match survives unless a percent sign of its text could be taken
for one of the pattern.
-/
namespace RuleTree
namespace Sql
open Source

/-! ### The class of trees -/

/-- A letter or an underscore, then letters, digits, underscores, points and
dollar signs, and not a keyword in any case. -/
structure IsName (name : String) : Prop where
  shape : ∃ c cs, name.toList = c :: cs ∧ startsIdentifier c = true ∧
    ∀ d ∈ cs, isNameChar d = true
  noKeyword : ∀ k, Terminal.keyword k ∈ lexicon.terminals →
    name.toList.map Char.toLower ≠ k.letters

theorem IsName.all {name : String} (h : IsName name) : ∀ c ∈ name.toList, isNameChar c = true := by
  obtain ⟨c, cs, hname, hc, hcs⟩ := h.shape
  rw [hname]
  exact List.forall_mem_cons.mpr
    ⟨isNameChar_of_continues (continuesIdentifier_of_starts hc), hcs⟩

/-- The texts of text matches: no percent sign stands where the pattern has its
own, and the end of a text is not empty. -/
def IsMatch (op : Operator) (s : String) : Prop :=
  (op.anchorsStart = true → s.toList.head? ≠ some '%') ∧
    (op.anchorsEnd = true → s.toList ≠ [] ∧ s.toList.getLast? ≠ some '%')

/-- What conditions tell apart: all groups, since all stand in parentheses. -/
def repertoire : Repertoire where
  IsName := IsName
  listed {name} h := by
    refine ⟨?_, trim_of_isNameChar h.all⟩
    rintro rfl
    obtain ⟨c, cs, hname, -⟩ := h.shape
    cases hname
  IsMatch := IsMatch
  matchesFields := False

/-! ### Values -/

/-- A value of a rule as it is written. -/
def written : ValueSource → Value → String
  | .field, v => v.display
  | _, v => literal .never v

/-- The quotes of a literal are taken away again. -/
theorem unquoted_textLiteral (s : String) : unquoted '\'' (textLiteral s).toList = s.toList := by
  rw [Text.toList_textLiteral, unquoted, List.tail_cons, List.dropLast_concat,
    Text.replaceAll_doubled]

theorem startsName_of_startsIdentifier {c : Char} (h : startsIdentifier c = true) :
    startsName c = true := by
  rcases Bool.or_eq_true_iff.mp h with h | h <;> simp [startsName, isFoldedLetter, h]

theorem continuesName_of_isNameChar {c : Char} (h : isNameChar c = true) :
    continuesName c = true := by
  simp only [isNameChar, continuesIdentifier, Bool.or_eq_true] at h
  rcases h with ((h | h) | h) | h
  · simp [continuesName, startsName_of_startsIdentifier h]
  all_goals simp [continuesName, h]

theorem wordExtent?_name {c : Char} {cs : List Char} (hc : startsName c = true)
    (hcs : ∀ d ∈ cs, continuesName d = true) {rest : List Char} (hrest : Stops rest) :
    wordExtent? .name c (cs ++ rest) = some cs.length :=
  nameExtent?_append hc hcs (hrest.not_continues (List.all_iff_forall_prop.mp (by decide)))

/-- A name stands for its field. -/
theorem spells_name {name : String} (h : IsName name) :
    lexicon.Spells name.toList (.field ⟨false, name.toList⟩) := by
  obtain ⟨c, cs, hname, hc, hcs⟩ := h.shape
  have hall := h.all
  have hfold : name.toList.map lexicon.fold = name.toList.map Char.toLower := map_foldCase hall
  have hkeyword := h.noKeyword
  rw [← hfold] at hkeyword
  rw [hname] at hall hkeyword ⊢
  refine Lexicon.spells_name rfl (isSpace_of_isNameChar (hall c List.mem_cons_self)) ?_ hkeyword
  exact fun rest hrest => wordExtent?_name (startsName_of_startsIdentifier hc)
    (fun d hd => continuesName_of_isNameChar (hcs d hd)) hrest

/-- A text as a literal stands for the text. -/
theorem spells_textLiteral (s : String) :
    lexicon.Spells (textLiteral s).toList (.text (textLiteral s).toList) := by
  rw [Text.toList_textLiteral]
  refine Lexicon.spells_of_first [.name, .quotedName] rfl (by decide) rfl ?_ ?_ rfl
  · intro u hu rest
    rcases List.mem_cons.mp hu with rfl | hu
    · rfl
    · obtain rfl := List.mem_singleton.mp hu
      rfl
  · intro rest hrest
    have hquote : ∀ c ∈ rest.head?, c ≠ '\'' := fun c hc he =>
      absurd (he ▸ hrest c hc) (by decide)
    exact Text.closeDoubled?_textLiteral s hquote

/-- The words for truth values stand for them. -/
theorem spells_truth (b : Bool) :
    lexicon.Spells (if b then "TRUE" else "FALSE").toList (.truth b) := by
  cases b
  · have hextent : ∀ rest, Stops rest → wordExtent? .name 'F' (['A', 'L', 'S', 'E'] ++ rest) =
        some ['A', 'L', 'S', 'E'].length := fun _ =>
      wordExtent?_name (by decide) (List.all_iff_forall_prop.mp (by decide))
    exact Lexicon.spells_word rfl rfl hextent (k := .falseValue) (by decide) (by decide) rfl
  · have hextent : ∀ rest, Stops rest → wordExtent? .name 'T' (['R', 'U', 'E'] ++ rest) =
        some ['R', 'U', 'E'].length := fun _ =>
      wordExtent?_name (by decide) (List.all_iff_forall_prop.mp (by decide))
    exact Lexicon.spells_word rfl rfl hextent (k := .trueValue) (by decide) (by decide) rfl

theorem spells_int (n : Int) :
    lexicon.Spells (Value.intText n).toList (.number (Value.intText n).toList) := by
  refine Lexicon.spells_int [.name, .quotedName, .text] rfl (fun u hu c hc cs => ?_) n
  have hstart : ∀ c ∈ Value.numeric, startsName c = false ∧ c ≠ '"' ∧ c ≠ '\x60' ∧ c ≠ '[' ∧
      c ≠ '\'' := List.all_iff_forall_prop.mp (by decide)
  simp only [List.mem_cons, List.not_mem_nil, or_false] at hu
  rcases hu with rfl | rfl | rfl <;>
    simp [Lexicon.extent?, lexicon, wordExtent?, nameExtent?, hstart c hc]

theorem nameOf_name (name : String) : nameOf ⟨false, name.toList⟩ = name := by simp [nameOf]

theorem operand_name (name : String) : operand (.field ⟨false, name.toList⟩) = .field name := by
  rw [operand, Leaf.operand, nameOf_name]

theorem operand_text (s : String) :
    operand (.text (textLiteral s).toList) = .literal (.text s) := by
  simp [operand, Leaf.operand, unquoted_textLiteral]

/-- A value is written as a token of the operand that it is. -/
theorem denotes_written {source : ValueSource} {v : Value} (h : repertoire.IsScalar source v) :
    lexicon.Denotes operand (written source v) (.ofSource source v) := by
  cases h with
  | text s => exact ⟨_, spells_textLiteral s, operand_text s⟩
  | int n => exact ⟨_, spells_int n, by rw [operand, Leaf.operand, numberValue_intText]; rfl⟩
  | bool b => exact ⟨_, spells_truth b, rfl⟩
  | @field name hname => exact ⟨_, spells_name hname, operand_name name⟩

/-- A text ends with a character that is no blank. -/
def Ends (s : String) : Prop := ∃ c, s.toList.getLast? = some c ∧ Text.isBlank c = false

theorem Ends.append {t : String} (h : Ends t) (s : String) : Ends (s ++ t) := by
  obtain ⟨c, hc, hblank⟩ := h
  exact ⟨c, by simp [List.getLast?_append, hc], hblank⟩

theorem ends_of_all {s : String} (hne : s.toList ≠ [])
    (h : ∀ c ∈ s.toList, Text.isBlank c = false) : Ends s :=
  ⟨s.toList.getLast hne, List.getLast?_eq_some_getLast hne, h _ (List.getLast_mem hne)⟩

theorem ends_textLiteral (s : String) : Ends (textLiteral s) := Ends.append ⟨'\'', rfl, by decide⟩ _

/-- What is written ends with no blank. -/
theorem ends_written {source : ValueSource} {v : Value} (h : repertoire.IsScalar source v) :
    Ends (written source v) := by
  cases h with
  | text s => exact ends_textLiteral s
  | int n => exact ends_of_all (Value.intText_ne_nil n) fun _ => Value.isBlank_of_mem_intText
  | bool b => cases b <;> exact ends_of_all (by decide) (List.all_iff_forall_prop.mp (by decide))
  | field hname =>
    refine ends_of_all ?_ fun c hc => isBlank_of_isNameChar (hname.all c hc)
    obtain ⟨c, cs, hshape, -⟩ := hname.shape
    exact hshape ▸ List.cons_ne_nil c cs

/-! ### Predicates -/

section
variable {field : String} {outer : List (Level Predicate)} {level : Level Predicate}

/-- A predicate that starts with a value goes on behind it. -/
theorem readFrom_left {w rest : List Char} {v : Leaf} (h : lexicon.Spells w v)
    (hrest : Stops rest) :
    readFrom grammar ⟨outer, level, .ahead⟩ (w ++ rest) =
      readFrom grammar ⟨outer, level, .inside (.afterLeft v)⟩ rest := by
  refine readFrom_ahead h (by decide) ?_ (fun t ht => by simp [grammar, ht]) hrest
  cases v with
  | field f => cases hf : f.isQuoted <;> simp [Leaf.terminal, grammar, hf]
  | truth b => cases b <;> decide
  | _ => simp [Leaf.terminal, grammar]

theorem readFrom_field (h : IsName field) {rest : List Char} (hrest : Stops rest) :
    readFrom grammar ⟨outer, level, .ahead⟩ (field.toList ++ rest) =
      readFrom grammar ⟨outer, level, .inside (.afterLeft (.field ⟨false, field.toList⟩))⟩ rest :=
  readFrom_left (spells_name h) hrest

theorem wantsValue_values : lexicon.WantsValue values := by decide

/-- A value on the left, wherever it is read, and a sign and another value behind it are a
comparison. -/
theorem readsTerm_comparison_of_left {w w' : List Char} {v v' : Leaf}
    (hleft : ∀ {outer level rest}, Stops rest →
      readFrom grammar ⟨outer, level, .ahead⟩ (w ++ rest) =
        readFrom grammar ⟨outer, level, .inside (.afterLeft v)⟩ rest)
    {op : Operator} (hop : op.isComparison = true) (hv' : lexicon.Spells w' v') :
    ReadsTerm grammar (w ++ ' ' :: ((Dialect.sqlSpelling op).toList ++ ' ' :: w'))
      (.predicate (.comparison v (Dialect.sqlSpelling op).toList v')) := by
  have hsign : ∀ rest, lexicon.Lexes (behindLeaf v) (Dialect.sqlSpelling op).toList (' ' :: rest)
      .comparator := by
    intro rest
    cases op <;> cases hop <;> cases v <;> exact ⟨_, _, rfl, rfl, rfl⟩
  have hvalue : ∀ t, t.leaf? = some v' → Partial.step? (.afterSign v
      (Dialect.sqlSpelling op).toList) t =
        some (.done (.comparison v (Dialect.sqlSpelling op).toList v')) :=
    fun t ht => by simp [Partial.step?, ht]
  exact readsTerm_operation hleft hsign rfl hv' wantsValue_values hvalue

/-- Two values with a sign between them are a comparison. -/
theorem readsTerm_comparison {w w' : List Char} {v v' : Leaf} (hv : lexicon.Spells w v)
    {op : Operator} (hop : op.isComparison = true) (hv' : lexicon.Spells w' v') :
    ReadsTerm grammar (w ++ ' ' :: ((Dialect.sqlSpelling op).toList ++ ' ' :: w'))
      (.predicate (.comparison v (Dialect.sqlSpelling op).toList v')) :=
  readsTerm_comparison_of_left (readFrom_left hv) hop hv'

/-- The words of an operator, negated or not, with a blank behind them. -/
def words (negated : Bool) (k : Keyword) : List Char :=
  (if negated then ['n', 'o', 't', ' '] else []) ++ k.letters ++ [' ']

/-- The words of an operator are read behind a field. -/
theorem readFrom_words {f : FieldName} {negated : Bool} {k : Keyword} {s : Partial}
    (hk : Partial.ofKeyword? f negated k = some s) (rest : List Char) :
    readFrom grammar ⟨outer, level, .inside (.afterLeft (.field f))⟩ (words negated k ++ rest) =
      readFrom grammar ⟨outer, level, .inside s⟩ rest := by
  have hword : ∀ t, grammar.step? t ⟨.keyword k, k.letters⟩ = some (.more s) →
      grammar.lexicon.Lexes (grammar.inside t) k.letters (' ' :: rest) (.keyword k) →
      readFrom grammar ⟨outer, level, .inside t⟩ (k.letters ++ ' ' :: rest) =
        readFrom grammar ⟨outer, level, .inside s⟩ rest := by
    intro t hstep hlex
    rw [readFrom_more hlex hstep, readFrom_space]
  cases negated with
  | false =>
    rw [words, if_neg (by simp), List.nil_append, List.append_assoc]
    refine hword _ ?_ ?_
    · cases k <;> cases hk <;> rfl
    · cases k <;> cases hk <;> exact ⟨_, _, rfl, rfl, rfl⟩
  | true =>
    have hnot : grammar.lexicon.Lexes (grammar.inside (.afterLeft (.field f))) ['n', 'o', 't']
        (' ' :: (k.letters ++ ' ' :: rest)) (.keyword .not) := ⟨_, _, rfl, rfl, rfl⟩
    have hsplit : words true k ++ rest = ['n', 'o', 't'] ++ ' ' :: (k.letters ++ ' ' :: rest) := by
      simp [words]
    rw [hsplit]
    refine Eq.trans (readFrom_more hnot rfl) ?_
    rw [readFrom_space]
    refine hword _ ?_ ?_
    · cases k <;> cases hk <;> rfl
    · cases k <;> cases hk <;> exact ⟨_, _, rfl, rfl, rfl⟩

/-- A field and a pattern are a text match. -/
theorem readsTerm_like (hname : IsName field) (negated : Bool) {w : List Char} {v : Leaf}
    (hv : lexicon.Spells w v) :
    ReadsTerm grammar (field.toList ++ ' ' :: (words negated .like ++ w))
      (.predicate (.like ⟨false, field.toList⟩ negated v)) := by
  intro outer level rest hrest
  have hvalue : ∀ t, t.leaf? = some v → Partial.step? (.afterLike ⟨false, field.toList⟩ negated) t =
      some (.done (.like ⟨false, field.toList⟩ negated v)) :=
    fun t ht => by simp [Partial.step?, ht]
  rw [List.append_assoc, List.cons_append, readFrom_field hname (stops_space _), readFrom_space,
    List.append_assoc, readFrom_words rfl]
  exact readFrom_value_done hv wantsValue_values hvalue hrest

/-- Values in parentheses are read up to the closing one. -/
theorem isRow_inList (f : FieldName) (negated : Bool) :
    IsRow grammar .parenClose ')' (.inList f negated)
      fun items => .done (.membership f negated items) where
  step _ _ := rfl
  opened := (by decide : lexicon.WantsValue (.mark .parenClose :: values))
  comma _ := wantsValue_values
  lexesComma _ last _ := by cases last <;> exact ⟨_, _, rfl, rfl, rfl⟩
  lexesClose _ last _ := by cases last <;> exact ⟨_, _, rfl, rfl, rfl⟩
  stops := stops_parenClose
  ne_comma := by decide

/-- A field and values in parentheses are a membership. -/
theorem readsTerm_membership (hname : IsName field) (negated : Bool) {ws : List (List Char)}
    {vs : List Leaf} (hvs : List.Forall₂ lexicon.Spells ws vs) (hne : ws ≠ []) :
    ReadsTerm grammar
      (field.toList ++ ' ' :: (words negated .isIn ++ '(' :: ([',', ' '].intercalate ws ++ [')'])))
      (.predicate (.membership ⟨false, field.toList⟩ negated vs)) := by
  intro outer level rest hrest
  have hopen : ∀ rest, grammar.lexicon.Lexes
      (grammar.inside (.afterIn ⟨false, field.toList⟩ negated)) ['('] rest (.mark .parenOpen) :=
    fun rest => ⟨_, _, rfl, rfl, rfl⟩
  rw [List.append_assoc, List.cons_append, readFrom_field hname (stops_space _), readFrom_space,
    List.append_assoc, readFrom_words rfl, List.cons_append, List.append_assoc]
  refine Eq.trans (readFrom_more (hopen _) rfl) ?_
  exact readFrom_items (isRow_inList _ negated) hvs hne rest

/-- A field and two values with `and` between them are a range. -/
theorem readsTerm_range (hname : IsName field) (negated : Bool) {w w' : List Char} {v v' : Leaf}
    (hv : lexicon.Spells w v) (hv' : lexicon.Spells w' v') :
    ReadsTerm grammar
      (field.toList ++ ' ' :: (words negated .between ++
        (w ++ ' ' :: (['a', 'n', 'd'] ++ ' ' :: w'))))
      (.predicate (.range ⟨false, field.toList⟩ negated v v')) := by
  intro outer level rest hrest
  have hlow : ∀ t, t.leaf? = some v →
      Partial.step? (.afterBetween ⟨false, field.toList⟩ negated) t =
        some (.more (.afterLow ⟨false, field.toList⟩ negated v)) :=
    fun t ht => by simp [Partial.step?, ht]
  have hand : grammar.lexicon.Lexes (grammar.inside (.afterLow ⟨false, field.toList⟩ negated v))
      ['a', 'n', 'd'] (' ' :: (w' ++ rest)) (.keyword .and) := by
    cases v <;> exact ⟨_, _, rfl, rfl, rfl⟩
  have hhigh : ∀ t, t.leaf? = some v' →
      Partial.step? (.afterAnd ⟨false, field.toList⟩ negated v) t =
        some (.done (.range ⟨false, field.toList⟩ negated v v')) :=
    fun t ht => by simp [Partial.step?, ht]
  rw [List.append_assoc, List.cons_append, readFrom_field hname (stops_space _), readFrom_space,
    List.append_assoc, readFrom_words rfl, List.append_assoc]
  refine Eq.trans (readFrom_value_more hv wantsValue_values hlow (stops_space _)) ?_
  change readFrom grammar _ (' ' :: (['a', 'n', 'd'] ++ ' ' :: (w' ++ rest))) = _
  rw [readFrom_space]
  refine Eq.trans (readFrom_more hand rfl) ?_
  refine Eq.trans (readFrom_space _ _) ?_
  exact readFrom_value_done hv' wantsValue_values hhigh hrest

/-- A field and the words of a null check are one. -/
theorem readsTerm_nullCheck (hname : IsName field) (negated : Bool) :
    ReadsTerm grammar
      (field.toList ++ ' ' :: (['i', 's', ' '] ++ (if negated then ['n', 'o', 't', ' '] else []) ++
        ['n', 'u', 'l', 'l']))
      (.predicate (.nullCheck ⟨false, field.toList⟩ negated)) := by
  intro outer level rest hrest
  have his : ∀ rest, grammar.lexicon.Lexes
      (grammar.inside (.afterLeft (.field ⟨false, field.toList⟩))) ['i', 's'] rest (.keyword .is) :=
    fun rest => ⟨_, _, rfl, rfl, rfl⟩
  rw [List.append_assoc, List.cons_append, readFrom_field hname (stops_space _), readFrom_space]
  cases negated with
  | false =>
    have hnull : grammar.lexicon.Lexes (grammar.inside (.afterIs ⟨false, field.toList⟩))
        ['n', 'u', 'l', 'l'] rest (.keyword .nullValue) := ⟨_, _, rfl, rfl, rfl⟩
    change readFrom grammar _ (['i', 's'] ++ ' ' :: (['n', 'u', 'l', 'l'] ++ rest)) = _
    refine Eq.trans (readFrom_more (his _) rfl) ?_
    rw [readFrom_space]
    exact readFrom_done hnull rfl
  | true =>
    have hnot : grammar.lexicon.Lexes (grammar.inside (.afterIs ⟨false, field.toList⟩))
        ['n', 'o', 't'] (' ' :: (['n', 'u', 'l', 'l'] ++ rest)) (.keyword .not) :=
      ⟨_, _, rfl, rfl, rfl⟩
    have hnull : grammar.lexicon.Lexes (grammar.inside (.afterIsNot ⟨false, field.toList⟩))
        ['n', 'u', 'l', 'l'] rest (.keyword .nullValue) := ⟨_, _, rfl, rfl, rfl⟩
    change readFrom grammar _
      (['i', 's'] ++ ' ' :: (['n', 'o', 't'] ++ ' ' :: (['n', 'u', 'l', 'l'] ++ rest))) = _
    refine Eq.trans (readFrom_more (his _) rfl) ?_
    refine Eq.trans (readFrom_space _ _) ?_
    refine Eq.trans (readFrom_more hnot rfl) ?_
    refine Eq.trans (readFrom_space _ _) ?_
    exact readFrom_done hnull rfl

end

/-! ### Rules -/

section
variable {source : ValueSource} {field : String} {op : Operator} {v : Value}

theorem fieldText_usual (v : Value) : fieldText (FormatPlan.usual .sql).style v = v.display := by
  simp [fieldText, FormatPlan.usual, Value.display]

/-- Nothing is trimmed from a text that starts with a name. -/
theorem trim_name_append (hname : IsName field) {s : String} (hs : Ends s) :
    Text.trim (field ++ s) = field ++ s := by
  obtain ⟨c, cs, hshape, -⟩ := hname.shape
  obtain ⟨d, hd, hblank⟩ := hs.append field
  rw [Text.trim, Text.trimBoth_eq_self, String.ofList_toList]
  · intro e he
    rw [String.toList_append, hshape] at he
    obtain rfl := Option.mem_some.mp he
    exact isBlank_of_isNameChar (hname.all _ (hshape ▸ List.mem_cons_self))
  · intro e he
    rw [hd] at he
    obtain rfl := Option.mem_some.mp he
    exact hblank

/-- A rule with a value is its field, its operator and its value. -/
theorem plainRule_value {r : Rule} (hfield : r.field = .text field) (hname : IsName field)
    (hop : r.operator? = some op) (htakes : op.isNullCheck = false) {text : String}
    (hvalue : valueText r (FormatPlan.usual .sql).style = .ok text) (hends : Ends text) :
    plainRule (.usual .sql) r =
      .ok (field ++ (" " ++ (Dialect.sqlSpelling op ++ (" " ++ text)))) := by
  have hresolve := Rule.resolve_of_operator? hop (.text "sql")
  have htruthy : (Value.text text).truthy = true := by
    obtain ⟨c, hc, -⟩ := hends
    have hne : text ≠ "" := by rintro rfl; cases hc
    simp [Value.truthy, hne]
  have hruleValue : ruleValue (.usual .sql) r = .ok (.text text) :=
    congrArg (Except.map Value.text) hvalue
  rw [plainRule, hresolve, hruleValue, hfield, fieldText_usual]
  simp only [Result.ok_bind, Value.display_text, htakes, htruthy, Bool.not_true, Bool.and_false,
    Bool.false_eq_true, if_false]
  rw [String.append_assoc, String.append_assoc, String.append_assoc,
    trim_name_append hname (((hends.append " ").append _).append " ")]
  rfl

/-- A null check is its field and its words. -/
theorem plainRule_nullCheck {r : Rule} (hfield : r.field = .text field)
    (hop : r.operator? = some op) (hnull : op.isNullCheck = true) :
    plainRule (.usual .sql) r = .ok (field ++ (" " ++ Dialect.sqlSpelling op)) := by
  have hresolve := Rule.resolve_of_operator? hop (.text "sql")
  rw [plainRule, hresolve, hfield, fieldText_usual]
  simp only [Result.ok_bind, Value.display_text, hnull, if_true, String.append_assoc]
  rfl

/-! ### Values of rules -/

/-- A comparison has its value as it is written. -/
theorem valueText_comparison {r : Rule} (hop : r.operator? = some op)
    (hcomparison : op.isComparison = true) (h : repertoire.IsScalar r.source r.value) :
    valueText r (FormatPlan.usual .sql).style = .ok (written r.source r.value) := by
  have hother := Operator.of_isComparison hcomparison
  rcases h.source_eq with hsource | hsource
  · simp [valueText, Rule.comparesFields, hsource, ValueSource.isField, hop, hother, written,
      FormatPlan.usual]
  · simp [valueText, Rule.comparesFields, hsource, ValueSource.isField, hop, hother, written,
      otherFields, fieldText_usual]

/-- A text match has its pattern as a literal. -/
theorem valueText_textMatch {r : Rule} {s : String} (hop : r.operator? = some op)
    (htext : op.isTextMatch = true) (hsource : r.source = .value) (hvalue : r.value = .text s) :
    valueText r (FormatPlan.usual .sql).style =
      .ok (textLiteral (likePattern op (.text s))) := by
  have hother := Operator.of_isTextMatch htext
  simp [valueText, Rule.comparesFields, hsource, ValueSource.isField, hop, hother, htext, hvalue]

/-- A membership has its items in parentheses. -/
theorem valueText_membership {r : Rule} {items : List Value} (hop : r.operator? = some op)
    (hmember : op.isMembership = true) (hvalue : r.value = .list items) (hne : items ≠ [])
    (h : ∀ v ∈ items, repertoire.IsItem r.source v) :
    valueText r (FormatPlan.usual .sql).style =
      .ok ("(" ++ Text.joinWith ", " (items.map (written r.source)) ++ ")") := by
  have hother := Operator.of_isMembership hmember
  have hitems := Repertoire.toItems_of_isItem h
  obtain ⟨item, rest, rfl⟩ := List.exists_cons_of_ne_nil hne
  rcases (h item List.mem_cons_self).source_eq with hsource | hsource
  · simp [valueText, Rule.comparesFields, hsource, ValueSource.isField, hop, hother.1, hmember,
      hvalue, hitems, written, FormatPlan.usual]
    rfl
  · have hfields : fieldText (FormatPlan.usual .sql).style = Value.display := funext fieldText_usual
    simp [valueText, Rule.comparesFields, hsource, ValueSource.isField, hop, hmember,
      hvalue, hitems, written, otherFields, hfields]
    rfl

/-- A range has its bounds with a word between them. -/
theorem valueText_range {r : Rule} {low high : Value} (hop : r.operator? = some op)
    (hrange : op.isRange = true) (hvalue : r.value = .list [low, high])
    (hlow : repertoire.IsItem r.source low) (hhigh : repertoire.IsItem r.source high) :
    valueText r (FormatPlan.usual .sql).style =
      .ok (written r.source low ++ " and " ++ written r.source high) := by
  have hother := Operator.of_isRange hrange
  have hbounds := Repertoire.bounds?_of_isItem hlow hhigh
  rcases hlow.source_eq with hsource | hsource
  · simp [valueText, Rule.comparesFields, hsource, ValueSource.isField, hop, hother.1, hother.2.1,
      hrange, hvalue, hbounds, written, FormatPlan.usual]
  · simp [valueText, Rule.comparesFields, hsource, ValueSource.isField, hop, hother.2.1, hrange,
      hvalue, hbounds, written, otherFields, fieldText_usual]

/-! ### Rules in their place -/

/-- A text that starts with a name starts with no blank. -/
theorem starts_of_name (hname : IsName field) (cs : List Char) :
    ∃ d ds, field.toList ++ cs = d :: ds ∧ Text.isBlank d = false := by
  obtain ⟨c, ds, hshape, -⟩ := hname.shape
  exact ⟨c, ds ++ cs, by rw [hshape]; rfl,
    isBlank_of_isNameChar (hname.all c (hshape ▸ List.mem_cons_self))⟩

/-- The rule is written as a condition that stands for it. -/
def Echoes (source : ValueSource) (field : String) (op : Operator) (v id : Value) : Prop :=
  ∃ text, plainRule (.usual .sql) { Rule.ofSource source field op v with id := id } = .ok text ∧
    Stands grammar meaning text.toList (.rule (Rule.ofSource source field op v))

theorem echoes_comparison (hname : IsName field) (hop : op.isComparison = true)
    (h : repertoire.IsScalar source v) (id : Value) : Echoes source field op v id := by
  have hoperator := Rule.operator?_ofSource source field op v id
  obtain ⟨leaf, hspells, hleaf⟩ := denotes_written h
  refine ⟨_, plainRule_value rfl hname hoperator (Operator.of_isComparison hop).1
    (valueText_comparison hoperator hop h) (ends_written h), ?_⟩
  have hsign : Operator.unmapFrom (.text (Dialect.sqlSpelling op)) (.text Dialect.sql.name) =
      .ok op := by cases op <;> cases hop <;> rfl
  have hclause : predicateClause (.comparison (.field ⟨false, field.toList⟩)
      (Dialect.sqlSpelling op).toList leaf) = .ok (.rule (Rule.ofSource source field op v)) := by
    rw [predicateClause, hleaf, String.ofList_toList, operand_name]
    exact Clause.comparisonClause_ofSource hsign h field false
  have htext : (field ++ (" " ++ (Dialect.sqlSpelling op ++ (" " ++ written source v)))).toList =
      field.toList ++ ' ' :: ((Dialect.sqlSpelling op).toList ++
        ' ' :: (written source v).toList) := by simp
  exact htext ▸ Stands.predicate (starts_of_name hname _)
    (readsTerm_comparison (spells_name hname) hop hspells) hclause

/-- The pattern of a text match tells its operator and its text. -/
theorem readLikePattern_likePattern (hop : op.isTextMatch = true) {s : String}
    (h : IsMatch op s) :
    readLikePattern (likePattern op (.text s)).toList =
      (if op.isNegatedText then op.inverse else op, s.toList) := by
  have hcontains : readLikePattern ("%" ++ s ++ "%").toList = (.contains, s.toList) := by
    have hlast : ('%' :: (s.toList ++ ['%'])).getLast? = some '%' :=
      List.getLast?_concat (l := '%' :: s.toList)
    simp [readLikePattern, hlast]
  have hbegins : s.toList.head? ≠ some '%' →
      readLikePattern (s ++ "%").toList = (.beginsWith, s.toList) := by
    intro hhead
    cases hs : s.toList with
    | nil => simp [readLikePattern, hs]
    | cons c cs =>
      rw [hs, List.head?_cons, ne_eq, Option.some.injEq] at hhead
      have hlast : (c :: (cs ++ ['%'])).getLast? = some '%' := List.getLast?_concat (l := c :: cs)
      have hdrop : (c :: (cs ++ ['%'])).dropLast = c :: cs := by
        rw [← List.cons_append, List.dropLast_concat]
      simp [readLikePattern, hs, hhead, hlast, hdrop]
  have hends : s.toList ≠ [] → s.toList.getLast? ≠ some '%' →
      readLikePattern ("%" ++ s).toList = (.endsWith, s.toList) := by
    intro hne hlast
    rw [List.getLast?_eq_some_getLast hne, ne_eq, Option.some.injEq] at hlast
    simp [readLikePattern, List.getLast?_cons, List.getLast?_eq_some_getLast hne, hlast]
  cases op <;> cases hop
  case contains | doesNotContain => exact hcontains
  case beginsWith | doesNotBeginWith => exact hbegins (h.1 rfl)
  case endsWith | doesNotEndWith => exact hends (h.2 rfl).1 (h.2 rfl).2

theorem echoes_textMatch (hname : IsName field) (hop : op.isTextMatch = true)
    (h : repertoire.IsMatched op source v) (id : Value) : Echoes source field op v id := by
  have hoperator := Rule.operator?_ofSource source field op v id
  cases h with
  | field hfields => exact hfields.elim
  | @text s hs =>
    refine ⟨_, plainRule_value rfl hname hoperator (Operator.of_isTextMatch hop).1
      (valueText_textMatch hoperator hop rfl rfl) (ends_textLiteral _), ?_⟩
    have hwords : (Dialect.sqlSpelling op).toList ++ [' '] = words op.isNegatedText .like := by
      cases op <;> cases hop <;> decide
    have hclause : predicateClause (.like ⟨false, field.toList⟩ op.isNegatedText
        (.text (textLiteral (likePattern op (.text s))).toList)) =
          .ok (.rule (Rule.ofSource .value field op (.text s))) := by
      -- a pattern has no negation, so it tells the operator or its inverse
      have hop' : (if op.isNegatedText then
          (if op.isNegatedText then op.inverse else op).inverse
          else if op.isNegatedText then op.inverse else op) = op := by
        cases op <;> cases hop <;> rfl
      simp only [predicateClause, patternRule, operand_text, Value.display_text,
        readLikePattern_likePattern hop hs, hop', nameOf_name, String.ofList_toList]
      rfl
    have htext : (field ++ (" " ++ (Dialect.sqlSpelling op ++
        (" " ++ textLiteral (likePattern op (.text s)))))).toList =
          field.toList ++ ' ' :: (words op.isNegatedText .like ++
            (textLiteral (likePattern op (.text s))).toList) := by
      rw [← hwords]
      simp
    exact htext ▸ Stands.predicate (starts_of_name hname _)
      (readsTerm_like hname _ (spells_textLiteral _)) hclause

theorem isName_of_isListed (name : String) (h : repertoire.IsListed name) :
    repertoire.IsName name := h

theorem echoes_membership (hname : IsName field) (hop : op.isMembership = true)
    {items : List Value} (hne : items ≠ []) (h : ∀ v ∈ items, repertoire.IsItem source v)
    (id : Value) : Echoes source field op (.list items) id := by
  have hoperator := Rule.operator?_ofSource source field op (.list items) id
  obtain ⟨vs, hspells, hvs⟩ := Lexicon.exists_leaves fun v hv =>
    denotes_written ((h v hv).isScalar isName_of_isListed)
  have hends : Ends ("(" ++ Text.joinWith ", " (items.map (written source)) ++ ")") :=
    Ends.append ⟨')', rfl, by decide⟩ _
  refine ⟨_, plainRule_value rfl hname hoperator (Operator.of_isMembership hop).1
    (valueText_membership hoperator hop rfl hne h) hends, ?_⟩
  -- the negation of the operator is a word of its own
  have hwords : (Dialect.sqlSpelling op).toList ++ [' '] = words (op = .notIn) .isIn := by
    cases op <;> cases hop <;> decide
  have hclause : predicateClause (.membership ⟨false, field.toList⟩ (op = .notIn) vs) =
      .ok (.rule (Rule.ofSource source field op (.list items))) := by
    have hop' : (if decide (op = .notIn) = true then Operator.notIn else .isIn) = op := by
      cases op <;> cases hop <;> rfl
    rw [predicateClause, hvs, nameOf_name, hop', Clause.listRule_ofSource hne h]
    rfl
  have htext : (field ++ (" " ++ (Dialect.sqlSpelling op ++ (" " ++ ("(" ++
      Text.joinWith ", " (items.map (written source)) ++ ")"))))).toList =
        field.toList ++ ' ' :: (words (op = .notIn) .isIn ++ '(' ::
          ([',', ' '].intercalate ((items.map (written source)).map String.toList) ++ [')'])) := by
    rw [← hwords]
    simp [Text.toList_joinWith]
  exact htext ▸ Stands.predicate (starts_of_name hname _)
    (readsTerm_membership hname _ hspells (by simpa using hne)) hclause

theorem echoes_range (hname : IsName field) (hop : op.isRange = true) {low high : Value}
    (hlow : repertoire.IsItem source low) (hhigh : repertoire.IsItem source high) (id : Value) :
    Echoes source field op (.list [low, high]) id := by
  have hoperator := Rule.operator?_ofSource source field op (.list [low, high]) id
  obtain ⟨leaf, hspells, hleaf⟩ := denotes_written (hlow.isScalar isName_of_isListed)
  obtain ⟨leaf', hspells', hleaf'⟩ := denotes_written (hhigh.isScalar isName_of_isListed)
  refine ⟨_, plainRule_value rfl hname hoperator (Operator.of_isRange hop).1
    (valueText_range hoperator hop rfl hlow hhigh)
    ((ends_written (hhigh.isScalar isName_of_isListed)).append _), ?_⟩
  have hwords : (Dialect.sqlSpelling op).toList ++ [' '] = words (op = .notBetween) .between := by
    cases op <;> cases hop <;> decide
  have hclause : predicateClause (.range ⟨false, field.toList⟩ (op = .notBetween) leaf leaf') =
      .ok (.rule (Rule.ofSource source field op (.list [low, high]))) := by
    have hop' : (if decide (op = .notBetween) = true then Operator.notBetween else .between) =
        op := by cases op <;> cases hop <;> rfl
    have hitems : ∀ v ∈ [low, high], repertoire.IsItem source v := by simp [hlow, hhigh]
    rw [predicateClause, hleaf, hleaf', nameOf_name, hop']
    exact congrArg (Except.map Clause.rule)
      (Clause.listRule_ofSource (List.cons_ne_nil _ _) hitems field op)
  have htext : (field ++ (" " ++ (Dialect.sqlSpelling op ++ (" " ++
      (written source low ++ " and " ++ written source high))))).toList =
        field.toList ++ ' ' :: (words (op = .notBetween) .between ++ ((written source low).toList ++
          ' ' :: (['a', 'n', 'd'] ++ ' ' :: (written source high).toList))) := by
    rw [← hwords]
    simp
  exact htext ▸ Stands.predicate (starts_of_name hname _)
    (readsTerm_range hname _ hspells hspells') hclause

theorem echoes_nullCheck (hname : IsName field) (hop : op.isNullCheck = true) (id : Value) :
    Echoes .value field op .null id := by
  refine ⟨_, plainRule_nullCheck rfl (Rule.operator?_ofSource .value field op .null id) hop, ?_⟩
  have hclause : predicateClause (.nullCheck ⟨false, field.toList⟩ (op = .notNull)) =
      .ok (.rule (Rule.ofSource .value field op .null)) := by
    rw [predicateClause, nameOf_name]
    cases op <;> cases hop <;> rfl
  have htext : (field ++ (" " ++ Dialect.sqlSpelling op)).toList =
      field.toList ++ ' ' :: (['i', 's', ' '] ++
        (if decide (op = .notNull) = true then ['n', 'o', 't', ' '] else []) ++
          ['n', 'u', 'l', 'l']) := by
    cases op <;> cases hop <;> simp [Dialect.sqlSpelling]
  exact htext ▸ Stands.predicate (starts_of_name hname _) (readsTerm_nullCheck hname _) hclause

end

/-! ### Groups -/

/-- The connectives with blanks around them. -/
def separator : Junction → List Char
  | .and => [' ', 'a', 'n', 'd', ' ']
  | .or => [' ', 'o', 'r', ' ']

/-- Behind a term comes what may follow its last value, or its last word. -/
theorem wanted_behind (t : Term Predicate) (outer : List (Level Predicate))
    (level : Level Predicate) :
    (∃ v, Progress.wanted grammar ⟨outer, level, .behind t⟩ = behindLeaf v) ∨
      Progress.wanted grammar ⟨outer, level, .behind t⟩ = behindTerm := by
  cases ht : t.ending? with
  | none => exact Or.inr (by simp [Progress.wanted, ht, grammar])
  | some p => cases p <;> simp [Progress.wanted, ht, grammar, behindPredicate]

theorem lexes_behind {w rest : List Char} {terminal : Terminal}
    (hleaf : ∀ v, lexicon.Lexes (behindLeaf v) w rest terminal)
    (hterm : lexicon.Lexes behindTerm w rest terminal) (t : Term Predicate)
    (outer : List (Level Predicate)) (level : Level Predicate) :
    grammar.lexicon.Lexes (Progress.wanted grammar ⟨outer, level, .behind t⟩) w rest terminal := by
  rcases wanted_behind t outer level with ⟨v, hv⟩ | hv
  · exact hv ▸ hleaf v
  · exact hv ▸ hterm

theorem punctuates : Punctuates grammar ['N', 'O', 'T', ' '] separator where
  opens outer level rest := readFrom_lexes (w := ['(']) ⟨_, _, rfl, rfl, rfl⟩ rfl
  closes outer around level t rest := by
    refine readFrom_lexes (w := [')']) (t := .mark .parenClose) (lexes_behind ?_ ?_ t _ _) rfl
    · intro v
      cases v <;> exact ⟨_, _, rfl, rfl, rfl⟩
    · exact ⟨_, _, rfl, rfl, rfl⟩
  joins j outer level t rest := by
    cases j with
    | and =>
      refine readFrom_spaced (w := ['a', 'n', 'd']) (t := .keyword .and)
        (lexes_behind ?_ ?_ t _ _) rfl
      · intro v
        cases v <;> exact ⟨_, _, rfl, rfl, rfl⟩
      · exact ⟨_, _, rfl, rfl, rfl⟩
    | or =>
      refine readFrom_spaced (w := ['o', 'r']) (t := .keyword .or) (lexes_behind ?_ ?_ t _ _) rfl
      · intro v
        cases v <;> exact ⟨_, _, rfl, rfl, rfl⟩
      · exact ⟨_, _, rfl, rfl, rfl⟩
  negates outer level rest := by
    refine Eq.trans (readFrom_lexes (w := ['N', 'O', 'T']) (t := .keyword .not) ?_ rfl)
      (readFrom_space _ _)
    exact ⟨_, _, rfl, rfl, rfl⟩
  starts := ⟨'N', _, rfl, by decide⟩
  separates j rest := by cases j <;> exact stops_space _

/-- The members of a group in parentheses, negated or not, stand for it. -/
theorem stands_joinGroup {j : Junction} {outs : List Value} {head : Clause} {cs : List Clause}
    (negated : Bool) (h : List.Forall₂ (ReadsText grammar meaning) outs (head :: cs)) :
    ∃ s, joinGroup (.text j.name) negated outs = .ok (.text s) ∧
      Stands grammar meaning s.toList (Clause.join j negated (head :: cs)) := by
  obtain ⟨ss, htexts, hstands⟩ := exists_texts h
  have hgroup := Stands.group punctuates j hstands
  have hseparator : (" " ++ j.name ++ " ").toList = separator j := by cases j <;> rfl
  have hjoin : ∀ negated, joinGroup (.text j.name) negated outs =
      .ok (.text ((if negated then "NOT " else "") ++ "(" ++
        Text.joinWith (" " ++ j.name ++ " ") ss ++ ")")) := by
    intro negated
    rw [joinGroup, htexts]
    simp [String.append_assoc]
  refine ⟨_, hjoin negated, ?_⟩
  cases negated with
  | false => simpa [Text.toList_joinWith, hseparator] using hgroup
  | true =>
    have hnegated : Stands grammar meaning _ (Clause.join j true (head :: cs)) :=
      Stands.negation punctuates hgroup rfl
    simpa [Text.toList_joinWith, hseparator] using hnegated

/-! ### Round trip -/

/-- The condition that always holds is read as an empty query. -/
theorem toTree_always : (readText grammar meaning .sql (.text always)).bind
    (Clause.toTree traits .arrays) = .ok (.group (.text "and") {} []) := by
  have hterm : ReadsTerm grammar ['1', ' ', '=', ' ', '1']
      (.predicate (.comparison (.number ['1']) ['='] (.number ['1']))) :=
    readsTerm_comparison (spells_int 1) (rfl : Operator.eq.isComparison = true) (spells_int 1)
  obtain ⟨s, hs⟩ : ∃ s, predicateClause (.comparison (.number ['1']) ['='] (.number ['1'])) =
      .ok (.constant s) := by
    have hvalue : operand (.number ['1']) = .literal (.int 1) :=
      congrArg Operand.literal (numberValue_intText 1)
    exact ⟨_, by rw [predicateClause, hvalue]; rfl⟩
  have hconstant : Stands grammar meaning ['1', ' ', '=', ' ', '1'] (.constant s) :=
    Stands.predicate ⟨'1', _, rfl, by decide⟩ hterm hs
  have hgroup := Stands.group punctuates .and (.cons hconstant .nil)
  have htext : always.toList = (separator .and).intercalate
      ['(' :: ((separator .and).intercalate [['1', ' ', '=', ' ', '1']] ++ [')'])] := by
    simp [always]
  rw [readText_terms punctuates .sql .and htext (.cons hgroup .nil)]
  exact Clause.toTree_of_isConstant rfl

/-- SQL conditions are read as what they were written from. -/
def echo : Echo plainWriter .sql traits repertoire where
  Reads := ReadsText grammar meaning
  whole := readText grammar meaning .sql
  always := .text always
  express := by decide
  isEmpty_of_reads := ReadsText.isNothing
  rule id hname htakes := by
    have hwrite : ∀ {source : ValueSource} {field : String} {op : Operator} {v : Value},
        Echoes source field op v id → ∃ out c, (∀ context, plainWriter.write (.usual .sql)
            { Rule.ofSource source field op v with id := id } context = pure out) ∧
          ReadsText grammar meaning out c ∧
          Clause.Builds traits c (.rule (Rule.ofSource source field op v)) := by
      rintro source field op v ⟨text, htext, hstands⟩
      refine ⟨.text text, _, fun context => ?_, ⟨text, rfl, hstands⟩, Clause.builds_rule _⟩
      simp only [plainWriter, htext]
      rfl
    cases htakes with
    | nullCheck hop => exact hwrite (echoes_nullCheck hname hop id)
    | comparison hop h => exact hwrite (echoes_comparison hname hop h id)
    | textMatch hop h => exact hwrite (echoes_textMatch hname hop h id)
    | membership hop hne h => exact hwrite (echoes_membership hname hop hne h id)
    | range hop hlow hhigh => exact hwrite (echoes_range hname hop hlow hhigh id)
  -- ranges are predicates of their own here
  range _ htraits := by cases htraits
  group _ _ _ hreads := by
    obtain ⟨s, hs, hstands⟩ := stands_joinGroup _ hreads
    exact ⟨_, hs, s, rfl, hstands⟩
  root _ _ hbuilds hreads := by
    obtain ⟨s, hs, hstands⟩ := stands_joinGroup _ hreads
    refine ⟨_, _, hs, ReadsText.isNothing ⟨s, rfl, hstands⟩,
      readText_terms punctuates .sql .and (by simp) (.cons hstands .nil), ?_,
      Clause.unwrapRoot_parentheses (Bool.or_true _)⟩
    exact (Clause.isConstant_parentheses _ _).trans (Clause.isConstant_join hbuilds)
  blank := toTree_always

end Sql

/-- **Round trip.**  Every canonical tree is read back from its SQL condition. -/
theorem reread_sql {t : Node} (h : t.Canonical Sql.repertoire true) :
    Query.reread "sql" t = .ok t.withoutIds := by
  obtain ⟨output, hrun, hread⟩ := Sql.echo.roundTrip h
  cases h with
  | group id =>
    refine Query.reread_eq rfl rfl rfl ?_ rfl hread
    rw [Query.write, Sql.plain, Writer.within_none, hrun]
    rfl

theorem reread_sql_specimen :
    Query.reread "sql" Node.specimen = .ok Node.specimen.withoutIds := by
  have hname : ∀ name ∈ ["name", "age", "rank", "grade", "level"], Sql.IsName name := by
    intro name hmem
    simp only [List.mem_cons, List.not_mem_nil, or_false] at hmem
    rcases hmem with rfl | rfl | rfl | rfl | rfl <;>
      exact ⟨⟨_, _, rfl, by decide, List.all_iff_forall_prop.mp (by decide)⟩,
        fun k _ => by cases k <;> decide⟩
  refine reread_sql (Node.canonical_specimen
    (fun name h => hname name (List.mem_append_left ["grade", "level"] h))
    (fun name h => hname name (List.mem_append_right ["name", "age", "rank"] h)) ?_
    fun _ => trivial)
  constructor <;> intro h <;> cases h

end RuleTree
