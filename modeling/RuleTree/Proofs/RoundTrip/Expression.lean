import RuleTree.Expression.Call
import RuleTree.Proofs.Names
import RuleTree.Proofs.RoundTrip

/-! # Expressions come back

What CEL and SpEL have in common on the way back.  Every kind of rule has one
shape of text in a language (`ownRule_comparison` and the like), and a call of a
text method is taken apart at its last point (`callRule_ofSource`).  Where a
grammar reads comparisons, null checks, calls and memberships of a language as
what they were written from (`Speaks`), it reads ranges as two comparisons in
parentheses (`Speaks.range`) and groups as what stands in parentheses, but for a
root that is not negated (`Speaks.joinGroup`, `Speaks.root`).  `Speaks.echo` puts
these together.
-/
namespace RuleTree
namespace Expression
open Source

/-! ### Texts of rules -/

section
variable {l : Language} {source : ValueSource} {field spelling : String} {op : Operator}
variable {v : Value} {r : Rule}

/-- A value of a rule as it is written. -/
def written (l : Language) : ValueSource → Value → String
  | .field, v => v.display
  | _, v => l.literal .never v

theorem operand_usual (hsource : r.source = .value ∨ r.source = .field) (v : Value) :
    l.operand (FormatPlan.usual l.dialect).style r v = written l r.source v := by
  rcases hsource with h | h <;>
    simp [Language.operand, Rule.comparesFields, h, ValueSource.isField, written, FormatPlan.usual]

/-- A rule with a value is written by its operator. -/
theorem writeRule_value (hfield : r.field = .text field) (hop : r.operator? = some op)
    (hspell : op.spellIn (.text l.dialect.name) = .ok spelling) (htakes : op.isNullCheck = false) :
    l.writeRule (.usual l.dialect) r =
      .ok (l.ownRule (FormatPlan.usual l.dialect).style op field spelling r) := by
  have hoperator : Language.ruleOperator l.dialect r = .ok op := by
    rw [Language.ruleOperator, hop]
  have hsupplied : (FormatPlan.usual l.dialect).suppliedValue r op = .ok none := by
    rw [FormatPlan.suppliedValue]
    split <;> rfl
  have hnull : op ≠ .null ∧ op ≠ .notNull := by
    constructor <;> rintro rfl <;> cases htakes
  rw [Language.writeRule, hoperator, Result.ok_bind, hspell, Result.ok_bind, hfield,
    Value.display_text]
  simp only [hnull.1, hnull.2, if_false, hsupplied, Result.ok_bind]
  rfl

theorem writeRule_null (hfield : r.field = .text field) (hop : r.operator? = some op)
    (hspell : op.spellIn (.text l.dialect.name) = .ok spelling) (hnull : op.isNullCheck = true) :
    l.writeRule (.usual l.dialect) r =
      .ok (field ++ (if op = .notNull then " != null" else " == null")) := by
  have hoperator : Language.ruleOperator l.dialect r = .ok op := by
    rw [Language.ruleOperator, hop]
  rw [Language.writeRule, hoperator, Result.ok_bind, hspell, Result.ok_bind, hfield,
    Value.display_text]
  cases op <;> cases hnull <;> rfl

/-- A comparison is its field, its sign and its value. -/
theorem ownRule_comparison (hop : op.isComparison = true)
    (hsource : r.source = .value ∨ r.source = .field) :
    l.ownRule (FormatPlan.usual l.dialect).style op field spelling r =
      field ++ " " ++ spelling ++ " " ++ written l r.source r.value := by
  have hother := Operator.of_isComparison hop
  simp [Language.ownRule, Language.application, Language.singleValue, hother,
    operand_usual hsource]

/-- A text match is the call of a method of its field, negated or not. -/
theorem ownRule_textMatch (hop : op.isTextMatch = true)
    (hvalue : r.source = .value ∧ (∃ s, r.value = .text s) ∨ r.source = .field) :
    l.ownRule (FormatPlan.usual l.dialect).style op field spelling r =
      (if op.isNegatedText then "!" else "") ++ field ++ "." ++ spelling ++
        "(" ++ written l r.source r.value ++ ")" := by
  have hother := Operator.of_isTextMatch hop
  have hsingle : l.singleValue (FormatPlan.usual l.dialect).style op r =
      written l r.source r.value := by
    rcases hvalue with ⟨hsource, s, hs⟩ | hsource
    · simp [Language.singleValue, hop, Rule.comparesFields, hsource, ValueSource.isField, hs]
      rfl
    · simp [Language.singleValue, Rule.comparesFields, hsource, ValueSource.isField,
        Language.operand, written]
  simp [Language.ownRule, Language.application, hother, hop, hsingle]

/-- A membership has its items as a list. -/
theorem ownRule_membership {d : Repertoire} {items : List Value} (hop : op.isMembership = true)
    (hvalue : r.value = .list items) (hne : items ≠ []) (h : ∀ v ∈ items, d.IsItem r.source v) :
    l.ownRule (FormatPlan.usual l.dialect).style op field spelling r =
      l.membership field (l.list (items.map (written l r.source))) (op = .notIn) := by
  have hitems := Repertoire.toItems_of_isItem h
  obtain ⟨item, rest, rfl⟩ := List.exists_cons_of_ne_nil hne
  have hoperand : l.operand (FormatPlan.usual l.dialect).style r = written l r.source :=
    funext (operand_usual (h item List.mem_cons_self).source_eq)
  simp [Language.ownRule, hop, hvalue, hitems, hoperand]

/-- A range has its bounds in two comparisons. -/
theorem ownRule_range {d : Repertoire} {low high : Value} (hop : op.isRange = true)
    (hvalue : r.value = .list [low, high]) (hlow : d.IsItem r.source low)
    (hhigh : d.IsItem r.source high) :
    l.ownRule (FormatPlan.usual l.dialect).style op field spelling r =
      l.range field op (written l r.source low) (written l r.source high) := by
  have hother := Operator.of_isRange hop
  have hbounds := Repertoire.bounds?_of_isItem hlow hhigh
  simp [Language.ownRule, hother.2.1, hop, hvalue, hbounds, operand_usual hlow.source_eq]

end

/-! ### Calls -/

/-- A call of a text method is taken apart at its last point. -/
theorem callRule_ofSource {dialect : Dialect} {source : ValueSource} {field method : String}
    {op : Operator} {v : Value} (hfield : field ≠ "") (hmethod : '.' ∉ method.toList)
    (hop : Operator.unmapFrom (.text method) (.text dialect.name) = .ok op)
    (htext : op.isTextMatch = true) (hsource : source = .value ∨ source = .field)
    (hv : source = .field → Value.text v.display = v) :
    callRule dialect (field ++ "." ++ method) [.ofSource source v] =
      .ok (Rule.ofSource source field op v) := by
  have hsplit : splitCall (field ++ "." ++ method) = .ok (field, method) := by
    obtain ⟨c, cs, hcs⟩ := List.exists_cons_of_ne_nil
      (fun h => hfield (String.toList_eq_nil_iff.mp h) : field.toList ≠ [])
    have hlist : (field ++ "." ++ method).toList = (c :: cs) ++ '.' :: method.toList := by
      rw [← hcs]
      simp
    rw [splitCall, hlist, Text.splitLast_append_cons hmethod]
    change Except.ok (String.ofList (c :: cs), String.ofList method.toList) = _
    rw [← hcs, String.ofList_toList, String.ofList_toList]
  rw [callRule, hsplit, Result.ok_bind]
  simp only [Clause.methodRule, hop, Result.ok_bind]
  rcases hsource with rfl | rfl
  · simp [htext, Operand.ofSource]
    rfl
  · simp [htext, Operand.ofSource]
    rw [Rule.ofFields, hv rfl]
    rfl

/-! ### Words -/

/-- The words of a language are tokens of its lexicon: dotted names that are no
keywords, and texts in quotes. -/
structure Vocabulary (l : Language) (lexicon : Lexicon) (text : List Char → List Char)
    (d : Repertoire) : Prop where
  terminals : ∃ after, lexicon.terminals = .name :: .text :: .number :: after
  extent {c : Char} {cs rest : List Char} : IsDotted (c :: cs) → Stops rest →
    lexicon.wordExtent? .name c (cs ++ rest) = some cs.length
  numeric : ∀ c ∈ Value.numeric, ∀ cs,
    lexicon.wordExtent? .name c cs = none ∧ lexicon.wordExtent? .text c cs = none
  fold_point : lexicon.fold '.' = '.'
  fold_word : ∀ k, Terminal.keyword k ∈ literals → k.letters.map lexicon.fold = k.letters
  name {name : String} : d.IsName name → IsDotted name.toList ∧
    ∀ k, Terminal.keyword k ∈ lexicon.terminals → name.toList.map lexicon.fold ≠ k.letters
  listed : ∀ name, d.IsListed name → d.IsName name
  quote (s : String) : lexicon.Spells (l.quote s).toList (.text (l.quote s).toList)
  unquote (s : String) : text (l.quote s).toList = s.toList

namespace Vocabulary
variable {l : Language} {lexicon : Lexicon} {text : List Char → List Char} {d : Repertoire}

/-- A dotted name that is no keyword stands for its field. -/
theorem spells_dotted (h : Vocabulary l lexicon text d) {w : List Char} (hw : IsDotted w)
    (hkeyword : ∀ k, Terminal.keyword k ∈ lexicon.terminals → w.map lexicon.fold ≠ k.letters) :
    lexicon.Spells w (.field ⟨false, w⟩) := by
  obtain ⟨after, hterminals⟩ := h.terminals
  obtain ⟨c, cs, rfl, -⟩ := hw.exists_cons
  exact Lexicon.spells_name hterminals (isSpace_of_isNameChar (hw.all c List.mem_cons_self))
    (fun rest hrest => h.extent hw hrest) hkeyword

theorem spells_name (h : Vocabulary l lexicon text d) {name : String} (hname : d.IsName name) :
    lexicon.Spells name.toList (.field ⟨false, name.toList⟩) :=
  h.spells_dotted (h.name hname).1 (h.name hname).2

/-- A field and a method with a point between them are one name. -/
theorem spells_method (h : Vocabulary l lexicon text d) {name : String} (hname : d.IsName name)
    {method : List Char} (hmethod : IsIdentifier method) :
    lexicon.Spells (name.toList ++ '.' :: method)
      (.field ⟨false, name.toList ++ '.' :: method⟩) := by
  refine h.spells_dotted ((h.name hname).1.append hmethod) fun k _ hk => ?_
  -- no keyword has a point in it
  have hmem : '.' ∈ k.letters := hk ▸ List.mem_map.mpr ⟨'.', by simp, h.fold_point⟩
  exact absurd hmem (by cases k <;> decide)

/-- A word for a value stands for it. -/
theorem spells_word (h : Vocabulary l lexicon text d) {k : Keyword} {v : Leaf}
    (hk : Terminal.keyword k ∈ literals) (hletters : IsIdentifier k.letters)
    (hleaf : (⟨.keyword k, k.letters⟩ : Token).leaf? = some v) :
    lexicon.Spells k.letters v := by
  obtain ⟨after, hterminals⟩ := h.terminals
  have hfold := h.fold_word k hk
  have hdotted := IsDotted.identifier hletters
  obtain ⟨c, cs, hcs, -⟩ := hdotted.exists_cons
  rw [hcs] at hdotted hfold hleaf ⊢
  exact Lexicon.spells_word hterminals
    (isSpace_of_isNameChar (hdotted.all c List.mem_cons_self))
    (fun rest hrest => h.extent hdotted hrest) hk (hfold.trans hcs.symm) hleaf

theorem spells_int (h : Vocabulary l lexicon text d) (n : Int) :
    lexicon.Spells (Value.intText n).toList (.number (Value.intText n).toList) := by
  obtain ⟨after, hterminals⟩ := h.terminals
  refine Lexicon.spells_int [.name, .text] hterminals (fun u hu c hc cs => ?_) n
  simp only [List.mem_cons, List.not_mem_nil, or_false] at hu
  rcases hu with rfl | rfl
  · exact (h.numeric c hc cs).1
  · exact (h.numeric c hc cs).2

/-- A value is written as a token of the operand that it is. -/
theorem denotes (h : Vocabulary l lexicon text d) {source : ValueSource} {v : Value}
    (hv : d.IsScalar source v) :
    lexicon.Denotes (Leaf.operand nameOf text) (written l source v) (.ofSource source v) := by
  cases hv with
  | text s =>
    refine ⟨_, h.quote s, ?_⟩
    rw [Leaf.operand, h.unquote, String.ofList_toList]
    rfl
  | int n => exact ⟨_, h.spells_int n, by rw [Leaf.operand, numberValue_intText]; rfl⟩
  | bool b =>
    cases b with
    | false =>
      have hword : (written l .value (.bool false)).toList = Keyword.falseValue.letters := by
        simp [written, Language.literal, Keyword.letters]
      exact ⟨_, hword ▸ h.spells_word (by decide) (by decide) rfl, rfl⟩
    | true =>
      have hword : (written l .value (.bool true)).toList = Keyword.trueValue.letters := by
        simp [written, Language.literal, Keyword.letters]
      exact ⟨_, hword ▸ h.spells_word (by decide) (by decide) rfl, rfl⟩
  | @field name hname =>
    refine ⟨_, h.spells_name hname, ?_⟩
    rw [Leaf.operand, nameOf, String.ofList_toList]
    rfl

/-- Items are written as tokens of the operands that they are. -/
theorem denotes_all (h : Vocabulary l lexicon text d) {source : ValueSource} {items : List Value}
    (hitems : ∀ v ∈ items, d.IsItem source v) :
    ∃ vs, List.Forall₂ lexicon.Spells ((items.map (written l source)).map String.toList) vs ∧
      vs.map (Leaf.operand nameOf text) = items.map (.ofSource source) :=
  Lexicon.exists_leaves fun v hv => h.denotes ((hitems v hv).isScalar h.listed)

end Vocabulary

/-! ### Languages that are read -/

/-- What stands between the terms of a group. -/
def separator (l : Language) : Junction → List Char
  | .and => (" " ++ l.conjunction ++ " ").toList
  | .or => (" " ++ l.disjunction ++ " ").toList

/-- A grammar reads comparisons, calls and memberships of a language, and the
signs around them. -/
structure Speaks {S P : Type} (l : Language) (g : Grammar S P) (m : Meaning P)
    (text : List Char → List Char) (d : Repertoire) : Prop
    extends Vocabulary l g.lexicon text d where
  dialect : l.dialect = .cel ∨ l.dialect = .spel
  distinct {isRoot : Bool} {j : Junction} {children : List Node} :
    d.IsDistinct isRoot false j children → Node.IsTold isRoot false j children
  punctuates : Punctuates g ['!'] (separator l)
  reads_comparison {w w' : List Char} {v v' : Leaf} {op : Operator} :
    g.lexicon.Spells w v → op.isComparison = true → g.lexicon.Spells w' v' →
    ∃ p, ReadsTerm g (w ++ ' ' :: ((Dialect.celSpelling op).toList ++ ' ' :: w'))
        (.predicate p) ∧
      m.predicate p = comparisonClause l.dialect true (Leaf.operand nameOf text v)
        (Dialect.celSpelling op) (Leaf.operand nameOf text v')
  reads_call {name w : List Char} {v : Leaf} :
    g.lexicon.Spells name (.field ⟨false, name⟩) → g.lexicon.Spells w v →
    ∃ p, ReadsTerm g (name ++ (['('] ++ (w ++ [')']))) (.predicate p) ∧
      m.predicate p = (callRule l.dialect (String.ofList name)
        [Leaf.operand nameOf text v]).map .rule
  membership {source : ValueSource} {field : String} {op : Operator} {items : List Value} :
    d.IsName field → op.isMembership = true → items ≠ [] → (∀ v ∈ items, d.IsItem source v) →
    Stands g m
      (l.membership field (l.list (items.map (written l source))) (op = .notIn)).toList
      (.rule (Rule.ofSource source field op (.list items)))
  negateRule (r : Rule) : m.negation (.rule r) = .ok (.rule (Clause.invertRule r))
  negateGroup {isRoot : Bool} {j : Junction} {children : List Node} {head : Clause}
      {cs : List Clause} :
    (∀ child ∈ children, child.Canonical d false) → d.IsDistinct isRoot true j children →
    List.Forall₂ (Clause.Builds traits) (head :: cs) (children.map Node.withoutIds) →
    m.negation (Clause.join j false (head :: cs)) = .ok (Clause.join j true (head :: cs))

section
variable {S P : Type} {l : Language} {g : Grammar S P} {m : Meaning P} {d : Repertoire}
variable {text : List Char → List Char}

theorem Speaks.spellIn (h : Speaks l g m text d) (op : Operator) :
    ∃ spelling, op.spellIn (.text l.dialect.name) = .ok spelling ∧
      (op.isMembership = false → spelling = Dialect.celSpelling op) := by
  rcases h.dialect with hd | hd <;> rw [hd]
  · exact ⟨_, rfl, fun _ => rfl⟩
  · exact ⟨_, rfl, fun hop => by cases op <;> first | rfl | cases hop⟩

theorem Speaks.unmapFrom (h : Speaks l g m text d) {op : Operator}
    (hop : op.isComparison = true ∨ op.isTextMatch = true ∧ op.isNegatedText = false) :
    Operator.unmapFrom (.text (Dialect.celSpelling op)) (.text l.dialect.name) = .ok op := by
  rcases hop with hop | ⟨hop, hnegated⟩
  · rcases h.dialect with hd | hd <;> rw [hd] <;> cases op <;> cases hop <;> rfl
  · rcases h.dialect with hd | hd <;> rw [hd] <;> cases op <;> cases hop <;> cases hnegated <;> rfl

/-- A comparison stands for itself. -/
theorem Speaks.comparison (h : Speaks l g m text d) {source : ValueSource} {field : String}
    {op : Operator} {v : Value} (hname : d.IsName field) (hop : op.isComparison = true)
    (hv : d.IsScalar source v) :
    Stands g m (field ++ " " ++ Dialect.celSpelling op ++ " " ++ written l source v).toList
      (.rule (Rule.ofSource source field op v)) := by
  obtain ⟨leaf, hspells, hleaf⟩ := h.denotes hv
  obtain ⟨p, hterm, hp⟩ := h.reads_comparison (h.spells_name hname) hop hspells
  have hclause : m.predicate p = .ok (.rule (Rule.ofSource source field op v)) := by
    rw [hp, hleaf, Leaf.operand, nameOf, String.ofList_toList]
    exact Clause.comparisonClause_ofSource (h.unmapFrom (Or.inl hop)) hv field true
  have htext : (field ++ " " ++ Dialect.celSpelling op ++ " " ++ written l source v).toList =
      field.toList ++ ' ' :: ((Dialect.celSpelling op).toList ++
        ' ' :: (written l source v).toList) := by simp
  exact htext ▸ Stands.predicate ((h.name hname).1.starts _) hterm hclause

/-- A comparison with null stands for a null check. -/
theorem Speaks.nullCheck (h : Speaks l g m text d) {field : String} {op : Operator}
    (hname : d.IsName field) (hop : op.isNullCheck = true) :
    Stands g m (field ++ (if op = .notNull then " != null" else " == null")).toList
      (.rule (Rule.ofSource .value field op .null)) := by
  have hnull : g.lexicon.Spells ['n', 'u', 'l', 'l'] .null :=
    h.spells_word (k := .nullValue) (by decide) (by decide) rfl
  suffices hcheck : ∀ sign : Operator, sign.isComparison = true →
      comparisonClause l.dialect true (.field field) (Dialect.celSpelling sign)
        (.literal .null) = .ok (.rule (Rule.ofSource .value field op .null)) →
      Stands g m (field.toList ++ ' ' :: ((Dialect.celSpelling sign).toList ++
        ' ' :: ['n', 'u', 'l', 'l'])) (.rule (Rule.ofSource .value field op .null)) by
    cases op <;> cases hop
    case null =>
      have hstands := hcheck .eq rfl (by rcases h.dialect with hd | hd <;> rw [hd] <;> rfl)
      simpa [Dialect.celSpelling] using hstands
    case notNull =>
      have hstands := hcheck .ne rfl (by rcases h.dialect with hd | hd <;> rw [hd] <;> rfl)
      simpa [Dialect.celSpelling] using hstands
  intro sign hsign hclause
  obtain ⟨p, hterm, hp⟩ := h.reads_comparison (h.spells_name hname) hsign hnull
  refine Stands.predicate ((h.name hname).1.starts _) hterm ?_
  rw [hp, ← hclause, Leaf.operand, nameOf, String.ofList_toList]
  rfl

/-- The call of a text method stands for its text match. -/
theorem Speaks.call (h : Speaks l g m text d) {source : ValueSource} {field : String}
    {op : Operator} {v : Value} (hname : d.IsName field) (hop : op.isTextMatch = true)
    (hnegated : op.isNegatedText = false) (hv : d.IsScalar source v) :
    Stands g m
      (field ++ "." ++ Dialect.celSpelling op ++ "(" ++ written l source v ++ ")").toList
      (.rule (Rule.ofSource source field op v)) := by
  have hmethod : IsIdentifier (Dialect.celSpelling op).toList := by
    cases op <;> cases hop <;> cases hnegated <;> decide
  have hpoint : '.' ∉ (Dialect.celSpelling op).toList := fun hmem =>
    absurd (hmethod.all _ hmem) (by decide)
  obtain ⟨leaf, hspells, hleaf⟩ := h.denotes hv
  obtain ⟨p, hterm, hp⟩ := h.reads_call (h.spells_method hname hmethod) hspells
  have hscalar : source = .field → Value.text v.display = v := by
    rintro rfl
    cases hv
    rfl
  have hclause : m.predicate p = .ok (.rule (Rule.ofSource source field op v)) := by
    have hofList : String.ofList (field.toList ++ '.' :: (Dialect.celSpelling op).toList) =
        field ++ "." ++ Dialect.celSpelling op := by
      rw [← String.toList_inj]
      simp
    rw [hp, hleaf, hofList, callRule_ofSource (h.name hname).1.listed.1 hpoint
      (h.unmapFrom (Or.inr ⟨hop, hnegated⟩)) hop hv.source_eq hscalar]
    rfl
  have htext : (field ++ "." ++ Dialect.celSpelling op ++ "(" ++ written l source v ++
      ")").toList = (field.toList ++ '.' :: (Dialect.celSpelling op).toList) ++
        (['('] ++ ((written l source v).toList ++ [')'])) := by simp
  have hstarts := ((h.name hname).1.append hmethod).starts
    (['('] ++ ((written l source v).toList ++ [')']))
  exact htext ▸ Stands.predicate hstarts hterm hclause

/-- The expression that always holds is a constant comparison. -/
theorem Speaks.always (h : Speaks l g m text d) :
    ∃ comparison, Stands g m Language.always.toList (.constant comparison) := by
  obtain ⟨leaf, hspells, hleaf⟩ := h.denotes (.int 1)
  have hop : Operator.eq.isComparison = true := rfl
  obtain ⟨p, hterm, hp⟩ := h.reads_comparison hspells hop hspells
  have hclause : ∃ comparison, m.predicate p = .ok (.constant comparison) := by
    rw [hp, hleaf]
    rcases h.dialect with hd | hd <;> rw [hd] <;> exact ⟨_, rfl⟩
  have hone : (written l .value (.int 1)).toList = ['1'] := by
    rw [show written l .value (.int 1) = "1" from rfl]
    rfl
  have htext : Language.always.toList =
      ['1'] ++ ' ' :: ((Dialect.celSpelling .eq).toList ++ ' ' :: ['1']) := by
    simp [Language.always, Dialect.celSpelling]
  rw [hone] at hterm
  obtain ⟨comparison, hclause⟩ := hclause
  exact ⟨comparison, htext ▸ Stands.predicate ⟨'1', _, rfl, by decide⟩ hterm hclause⟩

/-- A text match stands for itself, negated or not. -/
theorem Speaks.textMatch (h : Speaks l g m text d) {source : ValueSource} {field : String}
    {op : Operator} {v : Value} (hname : d.IsName field) (hop : op.isTextMatch = true)
    (hv : d.IsScalar source v) :
    Stands g m ((if op.isNegatedText then "!" else "") ++ field ++ "." ++
        Dialect.celSpelling op ++ "(" ++ written l source v ++ ")").toList
      (.rule (Rule.ofSource source field op v)) := by
  cases hnegated : op.isNegatedText with
  | false => simpa using h.call hname hop hnegated hv
  | true =>
    -- the text is the call for the inverse behind a negation
    have hinverse : op.inverse.isTextMatch = true ∧ op.inverse.isNegatedText = false ∧
        Dialect.celSpelling op.inverse = Dialect.celSpelling op := by
      cases op <;> cases hnegated <;> decide
    have hcall := h.call hname hinverse.1 hinverse.2.1 hv
    have hnegation := Stands.negation h.punctuates hcall (h.negateRule _)
    rw [Clause.invertRule_ofSource, Operator.inverse_inverse, hinverse.2.2] at hnegation
    simpa using hnegation

/-- A range stands for its two comparisons. -/
theorem Speaks.range (h : Speaks l g m text d) {source : ValueSource} {field : String}
    {op : Operator} {low high : Value} (hname : d.IsName field) (hop : op.isRange = true)
    (hlow : d.IsScalar source low) (hhigh : d.IsScalar source high) :
    Stands g m (l.range field op (written l source low) (written l source high)).toList
      (Clause.rangePair source field op low high) := by
  cases op <;> cases hop
  case between =>
    have hpair := Stands.group h.punctuates .and
      (.cons (h.comparison hname (rfl : Operator.ge.isComparison = true) hlow)
        (.cons (h.comparison hname (rfl : Operator.le.isComparison = true) hhigh) .nil))
    simpa [Language.range, Clause.rangePair, separator, Dialect.celSpelling] using hpair
  case notBetween =>
    have hpair := Stands.group h.punctuates .or
      (.cons (h.comparison hname (rfl : Operator.lt.isComparison = true) hlow)
        (.cons (h.comparison hname (rfl : Operator.gt.isComparison = true) hhigh) .nil))
    simpa [Language.range, Clause.rangePair, separator, Dialect.celSpelling] using hpair

/-! ### Groups -/

/-- The expressions of a group with its connective between them. -/
theorem joinGroup_eq {j : Junction} {outs : List Value} {ss : List String}
    (negated isRoot : Bool) (h : Value.texts outs = .ok ss) :
    ∃ joined, joined.toList = (separator l j).intercalate (ss.map String.toList) ∧
      l.joinGroup (.text j.name) negated isRoot outs =
        .ok (.text (if negated then "!(" ++ joined ++ ")"
          else if isRoot then joined else "(" ++ joined ++ ")")) := by
  cases j with
  | and =>
    refine ⟨Text.joinWith (" " ++ l.conjunction ++ " ") ss, Text.toList_joinWith _ _, ?_⟩
    rw [Language.joinGroup, h]
    rfl
  | or =>
    refine ⟨Text.joinWith (" " ++ l.disjunction ++ " ") ss, Text.toList_joinWith _ _, ?_⟩
    rw [Language.joinGroup, h]
    rfl

/-- The members of a group in parentheses, negated or not, stand for it. -/
theorem Speaks.joinGroup (h : Speaks l g m text d) {isRoot negated : Bool} {j : Junction}
    {children : List Node} {outs : List Value} {head : Clause} {cs : List Clause}
    (hcanonical : ∀ child ∈ children, child.Canonical d false)
    (hdistinct : d.IsDistinct isRoot negated j children)
    (hbuilds : List.Forall₂ (Clause.Builds traits) (head :: cs) (children.map Node.withoutIds))
    (hreads : List.Forall₂ (ReadsText g m) outs (head :: cs))
    (hparentheses : (negated || !isRoot) = true) :
    ∃ s, l.joinGroup (.text j.name) negated isRoot outs = .ok (.text s) ∧
      Stands g m s.toList (Clause.join j negated (head :: cs)) := by
  obtain ⟨ss, htexts, hstands⟩ := exists_texts hreads
  obtain ⟨joined, hjoined, hgroup⟩ := joinGroup_eq (l := l) negated isRoot htexts
  have hinner := Stands.group h.punctuates j hstands
  rw [← hjoined] at hinner
  cases negated with
  | false =>
    obtain rfl : isRoot = false := by simpa using hparentheses
    exact ⟨_, hgroup, by simpa using hinner⟩
  | true =>
    have hnegated := Stands.negation h.punctuates hinner
      (h.negateGroup hcanonical hdistinct hbuilds)
    exact ⟨_, hgroup, by simpa using hnegated⟩

/-- The root is read as a whole, without parentheses or negated. -/
theorem Speaks.root (h : Speaks l g m text d) {negated : Bool} {j : Junction}
    {children : List Node} {outs : List Value} {head : Clause} {cs : List Clause}
    (hcanonical : ∀ child ∈ children, child.Canonical d false)
    (hdistinct : d.IsDistinct true negated j children)
    (hbuilds : List.Forall₂ (Clause.Builds traits) (head :: cs) (children.map Node.withoutIds))
    (hreads : List.Forall₂ (ReadsText g m) outs (head :: cs)) :
    ∃ out c, l.joinGroup (.text j.name) negated true outs = .ok out ∧ out.isNothing = false ∧
      readText g m l.dialect out = .ok (some c) ∧ c.isConstant = false ∧
      Clause.unwrapRoot traits c = Clause.join j negated (head :: cs) := by
  cases negated with
  | true =>
    obtain ⟨s, hs, hstands⟩ := h.joinGroup hcanonical hdistinct hbuilds hreads rfl
    refine ⟨_, _, hs, ReadsText.isNothing ⟨s, rfl, hstands⟩,
      readText_terms h.punctuates l.dialect .and (by simp) (.cons hstands .nil), ?_,
      Clause.unwrapRoot_parentheses rfl⟩
    exact (Clause.isConstant_parentheses _ _).trans (Clause.isConstant_join hbuilds)
  | false =>
    obtain ⟨ss, htexts, hstands⟩ := exists_texts hreads
    obtain ⟨joined, hjoined, hgroup⟩ := joinGroup_eq (l := l) false true htexts
    have hwhole := readText_terms h.punctuates l.dialect j hjoined hstands
    have hlone : ¬Node.IsLoneNegation (children.map Node.withoutIds) :=
      fun hlone => h.distinct hdistinct rfl hlone.of_withoutIds
    refine ⟨_, _, hgroup, ?_, hwhole, Clause.isConstant_join hbuilds,
      Clause.unwrapRoot_join rfl hbuilds hlone⟩
    -- an empty text would be read as no condition at all
    have hne : joined ≠ "" := by
      rintro rfl
      rw [readText, if_pos (by decide)] at hwhole
      cases hwhole
    simp [Value.isNothing, hne]

/-- The expression that always holds is read as an empty query. -/
theorem Speaks.blank (h : Speaks l g m text d) :
    (readText g m l.dialect (.text Language.always)).bind (Clause.toTree traits .arrays) =
      .ok (.group (.text "and") {} []) := by
  obtain ⟨comparison, hstands⟩ := h.always
  rw [readText_terms h.punctuates l.dialect .and (by simp) (.cons hstands .nil)]
  exact Clause.toTree_of_isConstant rfl

/-! ### Round trip -/

/-- Every rule is written as a text that stands for a clause which becomes it. -/
theorem Speaks.rule (h : Speaks l g m text d) {source : ValueSource} {field : String}
    {op : Operator} {v : Value} (id : Value) (hname : d.IsName field)
    (htakes : d.Takes op source v) :
    ∃ out c, (∀ context, l.writer.write (.usual l.dialect)
        { Rule.ofSource source field op v with id := id } context = pure out) ∧
      ReadsText g m out c ∧
      Clause.Builds traits c (.rule (Rule.ofSource source field op v)) := by
  have hop := Rule.operator?_ofSource source field op v id
  obtain ⟨spelling, hspell, hspelling⟩ := h.spellIn op
  suffices hwrite : ∃ text c, l.writeRule (.usual l.dialect)
      { Rule.ofSource source field op v with id := id } = .ok text ∧ Stands g m text.toList c ∧
        Clause.Builds traits c (.rule (Rule.ofSource source field op v)) by
    obtain ⟨text, c, htext, hstands, hbuilds⟩ := hwrite
    refine ⟨.text text, c, fun context => ?_, ⟨text, rfl, hstands⟩, hbuilds⟩
    simp only [Language.writer, htext]
    rfl
  have hitem : ∀ {v}, d.IsItem source v → d.IsScalar source v := fun hv => hv.isScalar h.listed
  cases htakes with
  | nullCheck hnull =>
    exact ⟨_, _, writeRule_null rfl hop hspell hnull, h.nullCheck hname hnull,
      Clause.builds_rule _⟩
  | comparison hcomparison hv =>
    have hother := Operator.of_isComparison hcomparison
    refine ⟨_, _, writeRule_value rfl hop hspell hother.1, ?_, Clause.builds_rule _⟩
    rw [ownRule_comparison hcomparison hv.source_eq, hspelling hother.2.1]
    exact h.comparison hname hcomparison hv
  | textMatch htext hv =>
    have hother := Operator.of_isTextMatch htext
    refine ⟨_, _, writeRule_value rfl hop hspell hother.1, ?_, Clause.builds_rule _⟩
    rw [ownRule_textMatch htext (by cases hv <;> simp [Rule.ofSource]), hspelling hother.2.1]
    exact h.textMatch hname htext hv.isScalar
  | membership hmembership hne hitems =>
    have hother := Operator.of_isMembership hmembership
    refine ⟨_, _, writeRule_value rfl hop hspell hother.1, ?_, Clause.builds_rule _⟩
    rw [ownRule_membership hmembership rfl hne hitems]
    exact h.membership hname hmembership hne hitems
  | range hrange hlow hhigh =>
    have hother := Operator.of_isRange hrange
    refine ⟨_, _, writeRule_value rfl hop hspell hother.1, ?_,
      Clause.builds_rangePair rfl hlow.source_eq hrange field _ _⟩
    rw [ownRule_range hrange rfl hlow hhigh]
    exact h.range hname hrange (hitem hlow) (hitem hhigh)

theorem format_of_run {t : Node} {output : Option Value}
    (h : l.writer.run (.usual l.dialect) t = .ok (output, {})) :
    l.format (.usual l.dialect) t = .ok (output.getD (.text Language.always)) := by
  rw [Language.format, Writer.within_none, h]
  rfl

/-- Expressions of a language that is read are read as what they were written
from. -/
def Speaks.echo (h : Speaks l g m text d) : Echo l.writer l.dialect traits d where
  Reads := ReadsText g m
  whole := readText g m l.dialect
  always := .text Language.always
  express := by rcases h.dialect with hd | hd <;> simp [Language.writer, hd]
  isEmpty_of_reads := ReadsText.isNothing
  rule id hname htakes := h.rule id hname htakes
  range hdistinct _ hnegated := by
    subst hnegated
    simpa using h.distinct hdistinct rfl
  group hcanonical hdistinct hbuilds hreads := by
    obtain ⟨s, hs, hstands⟩ := h.joinGroup hcanonical hdistinct hbuilds hreads (by simp)
    exact ⟨_, hs, s, rfl, hstands⟩
  root hcanonical hdistinct hbuilds hreads := h.root hcanonical hdistinct hbuilds hreads
  blank := h.blank

end

end Expression
end RuleTree
