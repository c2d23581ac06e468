import RuleTree.Proofs.ConfiguredNames
import RuleTree.Proofs.FieldNames
import RuleTree.Proofs.Inlining
import RuleTree.Proofs.Parsing
import RuleTree.Proofs.RoundTrip.Sql
import RuleTree.Proofs.Translation

/-! # Names in double quotes

A name that is written between double quotes is read back from there exactly if it has no
double quote of its own: those inside a quoted name are read as doubled, but are written as
they are, so the name ends at the first of them, or two of them become one
(`Sql.nameOf_extent_iff`).  As the quote opens the first predicate of the condition, the
condition of a rule comes back as that rule for such names and for no others
(`Query.parse_quoted_iff`).
-/
namespace RuleTree
namespace Text
open Source

/-! ### Where a quoted text ends -/

/-- A quoted text ends if there is a quote. -/
theorem exists_closeDoubled? {quote : Char} {cs : List Char} (h : quote ∈ cs) :
    ∃ n, closeDoubled? quote cs = some n := by
  fun_induction closeDoubled? quote cs with
  | case1 => cases h
  | case2 | case5 | case6 => exact ⟨1, rfl⟩
  | case3 c hc => exact absurd (List.mem_singleton.mp h).symm hc
  | case4 cs n hn => exact ⟨n + 2, rfl⟩
  | case7 c d cs hc ih =>
    obtain ⟨n, hn⟩ := ih ((List.mem_cons.mp h).resolve_left (Ne.symm hc))
    exact ⟨n + 1, by rw [hn]; rfl⟩

/-- It ends at one. -/
theorem exists_of_closeDoubled? {quote : Char} {cs : List Char} {n : Nat}
    (h : closeDoubled? quote cs = some n) :
    ∃ inside after, cs = inside ++ quote :: after ∧ n = inside.length + 1 := by
  fun_induction closeDoubled? quote cs generalizing n with
  | case1 | case3 => cases h
  | case2 => exact ⟨[], [], rfl, (Option.some.inj h).symm⟩
  | case5 cs | case6 d cs => exact ⟨[], _, rfl, (Option.some.inj h).symm⟩
  | case4 cs m hm ih =>
    obtain ⟨inside, after, hcs, hm⟩ := ih hm
    refine ⟨quote :: quote :: inside, after, by rw [hcs]; rfl, ?_⟩
    rw [← Option.some.inj h, hm]
    rfl
  | case7 c d cs hc ih =>
    obtain ⟨m, hm, hn⟩ := Option.map_eq_some_iff.mp h
    obtain ⟨inside, after, hcs, rfl⟩ := ih hm
    exact ⟨c :: inside, after, by rw [hcs]; rfl, hn.symm⟩

/-- So it is no longer than what stands before the last quote. -/
theorem length_le_of_append_cons {quote : Char} {inside after cs rest : List Char}
    (hrest : quote ∉ rest) (h : inside ++ quote :: after = cs ++ quote :: rest) :
    inside.length ≤ cs.length := by
  rcases List.append_eq_append_iff.mp h with ⟨ds, hcs, -⟩ | ⟨ds, hinside, hafter⟩
  · rw [hcs, List.length_append]
    exact Nat.le_add_right _ _
  · cases ds with
    | nil => rw [hinside, List.append_nil]
    | cons d ds =>
      have hmem : quote ∈ rest := by
        rw [(List.cons.inj hafter).2]
        exact List.mem_append_right ds List.mem_cons_self
      exact absurd hmem hrest

/-- Taking doubled quotes single makes no text longer. -/
theorem length_replaceFrom_le (quote : Char) (cs : List Char) (skip : Nat) :
    (replaceFrom [quote, quote] [quote] skip cs).length ≤ cs.length := by
  fun_induction replaceFrom [quote, quote] [quote] skip cs with
  | case1 => exact Nat.le_refl 0
  | case2 skip c cs ih => exact Nat.le_succ_of_le ih
  | case3 c cs _ ih => exact Nat.succ_le_succ ih
  | case4 c cs _ ih => exact Nat.succ_le_succ ih

/-- Behind a quote less is read back than was written. -/
theorem length_replaceFrom_lt {quote : Char} {cs rest : List Char} (hrest : quote ∉ rest) {n : Nat}
    (hn : closeDoubled? quote (quote :: (cs ++ quote :: rest)) = some (n + 1)) :
    (replaceFrom [quote, quote] [quote] 0
      ((quote :: (cs ++ quote :: rest)).take n)).length < cs.length + 1 := by
  -- a text that ends at once is empty
  have hempty (h : some 1 = some (n + 1)) : (replaceFrom [quote, quote] [quote] 0
      ((quote :: (cs ++ quote :: rest)).take n)).length < cs.length + 1 := by
    obtain rfl : n = 0 := by simpa using h
    exact Nat.succ_pos _
  cases cs with
  | nil =>
    rw [List.nil_append, closeDoubled?, if_pos rfl, if_pos rfl] at hn
    split at hn
    · rename_i m hm
      obtain ⟨inside, after, rfl, -⟩ := exists_of_closeDoubled? hm
      exact absurd (List.mem_append_right inside List.mem_cons_self) hrest
    · exact hempty hn
  | cons d cs =>
    rw [List.cons_append, closeDoubled?, if_pos rfl] at hn
    split at hn
    · rename_i hd
      subst hd
      split at hn
      · rename_i m hm
        obtain ⟨inside, after, hinside, rfl⟩ := exists_of_closeDoubled? hm
        have hle := length_le_of_append_cons hrest hinside.symm
        obtain rfl : inside.length + 2 = n := by simpa using hn
        have hshort := length_replaceFrom_le d ((cs ++ d :: rest).take inside.length) 0
        rw [List.length_take] at hshort
        simp only [List.cons_append, List.take_succ_cons, replaceFrom, List.isPrefixOf,
          beq_self_eq_true, Bool.and_self, if_true, List.length_append, List.length_cons,
          List.length_nil]
        omega
      · exact hempty hn
    · exact hempty hn

/-- **Quotes.**  A text between quotes is read back from there exactly if no quote stands in
it, given that none comes later. -/
theorem replaceAll_take_eq_iff {quote : Char} {cs rest : List Char} (hrest : quote ∉ rest)
    {n : Nat} (hn : closeDoubled? quote (cs ++ quote :: rest) = some (n + 1)) :
    replaceAll [quote, quote] [quote] ((cs ++ quote :: rest).take n) = cs ↔ quote ∉ cs := by
  constructor
  · show replaceFrom [quote, quote] [quote] 0 ((cs ++ quote :: rest).take n) = cs → quote ∉ cs
    intro h hquote
    induction cs generalizing n with
    | nil => cases hquote
    | cons c cs ih =>
      by_cases hc : c = quote
      · subst hc
        exact absurd (congrArg List.length h) (Nat.ne_of_lt (length_replaceFrom_lt hrest hn))
      · -- the first character is read back, and the rest behind it
        obtain ⟨d, ds, hds⟩ : ∃ d ds, cs ++ quote :: rest = d :: ds :=
          List.exists_cons_of_ne_nil (by simp)
        rw [List.cons_append, hds, closeDoubled?, if_neg hc, ← hds] at hn
        obtain ⟨m, hm, hmn⟩ := Option.map_eq_some_iff.mp hn
        obtain ⟨inside, after, -, rfl⟩ := exists_of_closeDoubled? hm
        obtain rfl : inside.length + 1 = n := by simpa using hmn
        rw [List.cons_append, List.take_succ_cons, replaceFrom, if_neg] at h
        · exact ih hm (List.cons.inj h).2 ((List.mem_cons.mp hquote).resolve_left (Ne.symm hc))
        · simp [List.isPrefixOf, Ne.symm hc]
  · intro hquote
    have hne : ∀ c ∈ cs, c ≠ quote := fun c hc => ne_of_mem_of_not_mem hc hquote
    have hclose := closeDoubled?_doubled
      (fun c hc => ne_of_mem_of_not_mem (List.mem_of_mem_head? hc) hrest) cs
    rw [doubled_of_forall_ne hne] at hclose
    obtain rfl : n = cs.length := by simpa using hn.symm.trans hclose
    have hback := replaceAll_doubled quote cs
    rw [doubled_of_forall_ne hne] at hback
    rw [List.take_left, hback]

end Text

namespace Sql
open Source

/-! ### The name between the quotes -/

/-- The name that is read between the quotes is the one that was written there exactly if it
has no quote. -/
theorem nameOf_extent_iff {name : String} {rest : List Char} (hrest : '"' ∉ rest) {n : Nat}
    (hn : closeDoubled? '"' (name.toList ++ '"' :: rest) = some n) :
    nameOf ⟨true, '"' :: (name.toList ++ '"' :: rest).take n⟩ = name ↔ '"' ∉ name.toList := by
  obtain ⟨inside, after, hinside, rfl⟩ := Text.exists_of_closeDoubled? hn
  have htake : ((name.toList ++ '"' :: rest).take (inside.length + 1)).dropLast =
      (name.toList ++ '"' :: rest).take inside.length := by
    have hsplit : inside ++ '"' :: after = (inside ++ ['"']) ++ after := by simp
    rw [hinside, List.take_left, hsplit, List.take_left' (by simp), List.dropLast_concat]
  rw [← Text.replaceAll_take_eq_iff hrest hn, nameOf, ← String.toList_inj, String.toList_ofList]
  simp only [if_true, List.head?_cons, unquoted, List.tail_cons, htake]

/-- A quote opens a name in quotes wherever a predicate may start. -/
theorem readFrom_quotedName {cs : List Char} {n : Nat} (hn : closeDoubled? '"' cs = some n)
    (outer : List (Level Predicate)) (level : Level Predicate) :
    readFrom grammar ⟨outer, level, .ahead⟩ ('"' :: cs) =
      readFrom grammar ⟨outer, level, .inside (.afterLeft (.field ⟨true, '"' :: cs.take n⟩))⟩
        (cs.drop n) := by
  have hlex : lexicon.Lexes grammar.atStart ('"' :: cs.take n) (cs.drop n) .quotedName := by
    refine ⟨'"', cs.take n, rfl, by decide, ?_⟩
    rw [List.take_append_drop]
    have hwanted : Terminal.quotedName ∈ grammar.atStart := by decide
    have hfirst := lexicon.token?_of_first [.name] rfl
      (fun u hu => by obtain rfl := List.mem_singleton.mp hu; rfl) hwanted
      (show lexicon.extent? .quotedName '"' cs = some n from hn)
    simpa using hfirst
  let ahead : Progress Partial Predicate := ⟨outer, level, .ahead⟩
  let behind : Progress Partial Predicate :=
    ⟨outer, level, .inside (.afterLeft (.field ⟨true, '"' :: cs.take n⟩))⟩
  have hstep : ahead.step? grammar ⟨.quotedName, '"' :: cs.take n⟩ = some behind := rfl
  have hread := readFrom_lexes hlex hstep
  rwa [List.cons_append, List.take_append_drop] at hread

/-! ### The rule that a condition starts with -/

/-- A predicate that starts with a name in quotes is about the field of that name. -/
theorem PredicateTree.exists_rule {p : PredicateTree} {w : Lexeme .quotedName} {ts : List Token}
    (hp : p.tokens = w.token :: ts) {c : Clause} (hc : p.clause = .ok c) :
    ∃ r, c = .rule r ∧ r.field = .text (nameOf ⟨true, w.spelling⟩) := by
  -- all predicates but comparisons start with their field
  have hfield {field : FieldTree} (h : field.token = w.token) :
      field = .quotedName w := FieldTree.token_inj.mp h
  have hlist {field : FieldTree} {op : Operator} {operands : List Operand}
      (h : field.token = w.token)
      (hc : (Clause.listRule (nameOf field.fieldName) op operands).map .rule = .ok c) :
      ∃ r, c = .rule r ∧ r.field = .text (nameOf ⟨true, w.spelling⟩) := by
    obtain rfl := hfield h
    unfold Clause.listRule at hc
    split at hc <;> cases hc <;> exact ⟨_, rfl, rfl⟩
  cases p with
  | comparison left sign right =>
    obtain rfl : left = .field (.quotedName w) :=
      ValueTree.token_inj.mp (List.cons.inj hp).1
    obtain ⟨op, -, hc⟩ := Result.bind_eq_ok hc
    split at hc
    · rename_i hleft _
      cases hleft
    · obtain ⟨r, hr, hc⟩ := Result.bind_eq_ok hc
      obtain rfl := Except.ok.inj hc
      refine ⟨r, rfl, ?_⟩
      cases hright : right.operand with
      | field g | literal v =>
        rw [hright] at hr
        cases hr
        rfl
  | like field not? word pattern =>
    obtain rfl := hfield (List.cons.inj hp).1
    obtain ⟨r, hr, rfl⟩ := Result.map_eq_ok hc
    refine ⟨r, rfl, ?_⟩
    unfold patternRule at hr
    split at hr <;> cases hr
    rfl
  | membership field | range field => exact hlist (List.cons.inj hp).1 hc
  | nullCheck field =>
    obtain rfl := hfield (List.cons.inj hp).1
    cases hc
    exact ⟨_, rfl, rfl⟩

/-- The first rule of a condition that opens with a parenthesis and a name in quotes is about
the field of that name. -/
theorem ConditionTree.head?_rules {e : ConditionTree} {opening : Lexeme (.mark .parenOpen)}
    {w : Lexeme .quotedName} {ts : List Token}
    (he : e.tokens = opening.token :: w.token :: ts) {c : Clause} (hc : e.clause = .ok c) :
    (c.rules.head?).map Rule.field = some (.text (nameOf ⟨true, w.spelling⟩)) := by
  obtain ⟨head, tail⟩ := e
  cases head with
  | predicate p => exact absurd he (p.tokens_append_ne (by decide) opening _ _)
  | negation not t => cases congrArg Token.terminal (List.cons.inj he).1
  | group opening' head tail' closing =>
    have htokens := (List.cons.inj he).2
    cases head with
    | negation | group => cases congrArg Token.terminal (List.cons.inj htokens).1
    | predicate p =>
      obtain ⟨v, rest, hp⟩ := p.exists_value
      rw [TermTree.tokens, hp] at htokens
      rw [(List.cons.inj htokens).1] at hp
      obtain ⟨outer, houter, hc⟩ := Result.bind_eq_ok hc
      obtain ⟨_, -, hc⟩ := Result.bind_eq_ok hc
      obtain ⟨first, hfirst, houter⟩ := Result.bind_eq_ok houter
      obtain ⟨_, -, houter⟩ := Result.bind_eq_ok houter
      obtain rfl := Except.ok.inj hc
      obtain rfl := Except.ok.inj houter
      obtain ⟨r, rfl, hr⟩ := PredicateTree.exists_rule hp hfirst
      simp [Clause.rules, hr]

/-- The rules of a tree that is read are those of its clause, as they are stored. -/
theorem rules_of_read {s : String} {t : Node} (h : read {} (.text s) = .ok t) (hne : t.rules ≠ []) :
    ∃ f c, readFormula grammar .sql s.toList = .ok f ∧ meaning.formula f = .ok c ∧
      t.rules = c.rules.map (Clause.finishRule {}) := by
  obtain ⟨root, hroot, h⟩ := Result.bind_eq_ok h
  obtain ⟨group, hgroup, h⟩ := Result.bind_eq_ok h
  obtain ⟨tree, htree, h⟩ := Result.bind_eq_ok h
  obtain rfl : tree = t := Except.ok.inj h
  have hstandard : group.toStandard = .ok tree := htree
  rw [Clause.toGroup_eq_map] at hgroup
  obtain ⟨whole, hwhole, rfl⟩ := Result.map_eq_ok hgroup
  have hrules {c : Clause}
      (hc : Clause.toGroup traits ({} : ParsePlan).verbatim (Clause.unwrapRoot traits c) =
        .ok whole) :
      tree.rules = c.rules.map (Clause.finishRule {}) := by
    rw [Node.rules_of_toStandard hstandard, Node.rules_mapRules,
      Clause.rules_of_toGroup rfl hc, Clause.rules_unwrapRoot]
  have hempty (hc : Clause.toGroup traits ({} : ParsePlan).verbatim
      (Clause.unwrapRoot traits (.empty false)) = .ok whole) : False :=
    hne (by rw [hrules hc, Clause.rules, List.map_nil])
  cases root with
  | none => exact (hempty hwhole).elim
  | some c =>
    dsimp only at hwhole
    split at hwhole
    · exact (hempty hwhole).elim
    · unfold readText at hroot
      dsimp only at hroot
      split at hroot
      · cases hroot
      · obtain ⟨f, hf, hroot⟩ := Result.bind_eq_ok hroot
        obtain ⟨c', hc, hroot⟩ := Result.bind_eq_ok hroot
        obtain rfl : c' = c := Option.some.inj (Except.ok.inj hroot)
        exact ⟨f, c', hf, hc, hrules hwhole⟩

/-! ### Quoted names in conditions -/

/-- What stands behind the name in the condition of a rule. -/
def behindName : List Char := [' ', '=', ' ', '\'', 'x', '\'', ')']

/-- The condition that a rule on a field is written as, with the name in double quotes. -/
def quotedCondition (name : String) : String := "(\"" ++ name ++ "\" = 'x')"

theorem toList_quotedCondition (name : String) :
    (quotedCondition name).toList = '(' :: '"' :: (name.toList ++ '"' :: behindName) := by
  simp [quotedCondition, behindName]

/-- Reading it goes on behind the name. -/
theorem readFrom_quotedCondition {name : String} {n : Nat}
    (hn : closeDoubled? '"' (name.toList ++ '"' :: behindName) = some n) :
    readFrom grammar {} (quotedCondition name).toList =
      readFrom grammar ⟨[{}], {}, .inside (.afterLeft (.field
        ⟨true, '"' :: (name.toList ++ '"' :: behindName).take n⟩))⟩
          ((name.toList ++ '"' :: behindName).drop n) := by
  rw [toList_quotedCondition]
  exact (punctuates.opens [] {} _).trans (readFrom_quotedName hn [{}] {})

/-- The first rule that is read is about the field of the name that stands between the
quotes. -/
theorem nameOf_of_read {name : String} {t : Node} {r : Rule} {n : Nat}
    (hn : closeDoubled? '"' (name.toList ++ '"' :: behindName) = some n)
    (h : read {} (.text (quotedCondition name)) = .ok t) (hr : t.rules.head? = some r) :
    r.field = .text (nameOf ⟨true, '"' :: (name.toList ++ '"' :: behindName).take n⟩) := by
  have hne : t.rules ≠ [] := by
    rintro hnil
    rw [hnil] at hr
    cases hr
  obtain ⟨f, c, hf, hc, hrules⟩ := rules_of_read h hne
  unfold readFormula at hf
  split at hf
  · rename_i f' hread
    obtain rfl := Except.ok.inj hf
    rw [readFrom_quotedCondition hn] at hread
    obtain ⟨tokens, -, hformula⟩ := exists_scans hread
    have hwhole : grammar.formula? ((⟨['(']⟩ : Lexeme (.mark .parenOpen)).token ::
        (⟨'"' :: (name.toList ++ '"' :: behindName).take n⟩ : Lexeme .quotedName).token ::
          tokens) = some f' :=
      (Progress.formula?_cons rfl _).trans ((Progress.formula?_cons rfl _).trans hformula)
    obtain ⟨e, htokens, rfl⟩ := ConditionTree.exists_of_formula? hwhole
    have hfirst := e.head?_rules htokens (e.meaning_formula ▸ hc)
    rw [hrules, List.head?_map] at hr
    obtain ⟨first, hhead, rfl⟩ := Option.map_eq_some_iff.mp hr
    rw [hhead] at hfirst
    have hfield : (Clause.finishRule {} first).field = first.field := by
      unfold Clause.finishRule
      dsimp only
      split <;> rfl
    exact hfield.trans (Option.some.inj hfirst)
  · cases hf

/-- Without quotes of its own a name stands for its field between quotes. -/
theorem readFrom_quoted {name : String} (hquote : '"' ∉ name.toList)
    {outer : List (Level Predicate)} {level : Level Predicate} {rest : List Char}
    (hrest : Stops rest) :
    readFrom grammar ⟨outer, level, .ahead⟩ ('"' :: (name.toList ++ ['"']) ++ rest) =
      readFrom grammar ⟨outer, level, .inside (.afterLeft (.field
        ⟨true, '"' :: (name.toList ++ ['"'])⟩))⟩ rest := by
  have hne : ∀ c ∈ name.toList, c ≠ '"' := fun c hc => ne_of_mem_of_not_mem hc hquote
  have hbehind : ∀ c ∈ rest.head?, c ≠ '"' := fun c hc he => absurd (he ▸ hrest c hc) (by decide)
  have hextent := Text.closeDoubled?_doubled hbehind name.toList
  rw [Text.doubled_of_forall_ne hne] at hextent
  have hsplit : name.toList ++ '"' :: rest = (name.toList ++ ['"']) ++ rest := by simp
  have hread := readFrom_quotedName hextent outer level
  rw [hsplit, List.take_left' (by simp), List.drop_left' (by simp)] at hread
  exact hread

theorem nameOf_quoted {name : String} (hquote : '"' ∉ name.toList) :
    nameOf ⟨true, '"' :: (name.toList ++ ['"'])⟩ = name := by
  have hne : ∀ c ∈ name.toList, c ≠ '"' := fun c hc => ne_of_mem_of_not_mem hc hquote
  have hback := Text.replaceAll_doubled '"' name.toList
  rw [Text.doubled_of_forall_ne hne] at hback
  simp [nameOf, unquoted, hback]

/-- A predicate with such a name stands for its rule. -/
theorem stands_quoted {name : String} (hquote : '"' ∉ name.toList) :
    Stands grammar meaning ('"' :: (name.toList ++ ['"', ' ', '=', ' ', '\'', 'x', '\'']))
      (.rule (Rule.of name .eq (.text "x"))) := by
  have hclause : predicateClause (.comparison (.field ⟨true, '"' :: (name.toList ++ ['"'])⟩) ['=']
      (.text (textLiteral "x").toList)) = .ok (.rule (Rule.of name .eq (.text "x"))) := by
    have hleft : operand (.field ⟨true, '"' :: (name.toList ++ ['"'])⟩) = .field name :=
      congrArg Operand.field (nameOf_quoted hquote)
    rw [predicateClause, hleft, operand_text]
    rfl
  have hstands : Stands grammar meaning _ (.rule (Rule.of name .eq (.text "x"))) :=
    Stands.predicate ⟨'"', _, rfl, by decide⟩
      (readsTerm_comparison_of_left (readFrom_quoted hquote)
        (show Operator.eq.isComparison from rfl) (spells_textLiteral "x")) hclause
  have htext : ('"' :: (name.toList ++ ['"']) ++ ' ' :: ((Dialect.sqlSpelling .eq).toList ++
      ' ' :: (textLiteral "x").toList)) =
        '"' :: (name.toList ++ ['"', ' ', '=', ' ', '\'', 'x', '\'']) := by
    simp [Dialect.sqlSpelling, Text.toList_textLiteral, Text.doubled]
  exact htext ▸ hstands

/-- The condition is read as the rule then. -/
theorem read_quotedCondition {name : String} (hquote : '"' ∉ name.toList) :
    read {} (.text (quotedCondition name)) =
      .ok (.group (.text "and") {} [.rule (Rule.of name .eq (.text "x"))]) := by
  have hgroup := Stands.group punctuates .and (.cons (stands_quoted hquote) .nil)
  have hread := readText_terms punctuates .sql .and (s := quotedCondition name)
    (by simp [toList_quotedCondition, behindName]) (.cons hgroup .nil)
  rw [read, Meaning.within_none, hread]
  rfl

/-- A name with quotes may be written as a condition of several rules. -/
theorem read_injected :
    read {} (.text (quotedCondition "a\" = 'x' or \"b")) =
      .ok (.group (.text "or") {} [.rule (Rule.of "a" .eq (.text "x")),
        .rule (Rule.of "b" .eq (.text "x"))]) := by
  have hnone : '"' ∉ "a".toList ∧ '"' ∉ "b".toList := by decide
  have hgroup := Stands.group punctuates .or
    (.cons (stands_quoted hnone.1) (.cons (stands_quoted hnone.2) .nil))
  have hread := readText_terms punctuates .sql .and (s := quotedCondition "a\" = 'x' or \"b")
    (by decide) (.cons hgroup .nil)
  rw [read, Meaning.within_none, hread]
  rfl

/-! ### Rules on quoted names -/

/-- Field names are written in double quotes. -/
def quoting : FormatOptions := { format := .text "sql", quotes := .text "\"" }

/-- A rule with such a field name. -/
theorem plainRule_quoting {plan : FormatPlan}
    (hquotes : plan.style.quotes = (.text "\"", .text "\""))
    (hpolicy : plan.style.policy = .never) (hhook : plan.valueHook = .absent) (name : String) :
    plainRule plan (Rule.of name .eq (.text "x")) = .ok ("\"" ++ name ++ "\" = 'x'") := by
  have hfield : fieldText plan.style (.text name) = "\"" ++ name ++ "\"" := by
    simp [fieldText, hquotes]
  have hstart : Text.IsStart (fieldText plan.style (.text name)) := by
    rw [hfield]
    exact .append (.append ⟨'"', [], rfl, by decide⟩ _) _
  have hvalue : valueText (Rule.of name .eq (.text "x")) plan.style = .ok "'x'" := by
    have hliteral : literal plan.style.policy (.text "x") = "'x'" := by rw [hpolicy]; decide
    have hvalue : valueText (Rule.of name .eq (.text "x")) plan.style =
        .ok (literal plan.style.policy (.text "x")) := rfl
    rw [hvalue, hliteral]
  have hmark : Text.IsMark "'x'" := ⟨['\'', 'x'], '\'', by decide, by decide⟩
  have hbehind : "\"" ++ (" " ++ (Dialect.sqlSpelling .eq ++ (" " ++ "'x'"))) = "\" = 'x'" := by
    decide
  have hclause : plainClause plan.style .eq (Rule.of name .eq (.text "x")) "'x'" =
      fieldText plan.style (.text name) ++ " " ++ Dialect.sqlSpelling .eq ++ " " ++ "'x'" :=
    plainClause_of_isMark (r := Rule.of name .eq (.text "x")) rfl hstart hmark
  have hop : (Rule.of name .eq (.text "x")).operator? = some .eq := rfl
  rw [plainRule_eq hop hhook, hvalue, Except.map, hclause, hfield]
  simp only [String.append_assoc, hbehind]

/-- The condition of such a rule. -/
theorem format_quoting (name : String) :
    Query.format quoting (.rule (Rule.of name .eq (.text "x"))) =
      .ok (.value (.text (quotedCondition name))) := by
  let plan : FormatPlan :=
    { style := { format := .dialect .sql, quotes := (.text "\"", .text "\"") } }
  have hplan : plan.IsUsual := ⟨⟨.sql, rfl, by decide⟩, rfl, rfl, rfl, rfl, rfl⟩
  have hmember (path : Path) : plainWriter.writeNode plan none path
      (.rule (Rule.of name .eq (.text "x"))) =
        pure (some (.text ("\"" ++ name ++ "\" = 'x'"))) := by
    have hwrite : plainWriter.writeRule plan path (Rule.of name .eq (.text "x")) =
        pure (.text ("\"" ++ name ++ "\" = 'x'")) := by
      funext bindings
      have hop : (Rule.of name .eq (.text "x")).operator? = some .eq := rfl
      rw [Writer.writeRule_of_isUsual (by decide) hplan hop, write_plain,
        plainRule_quoting rfl rfl rfl]
      rfl
    rw [Writer.writeNode, hwrite]
    rfl
  have hjoin : joinGroup (.text "and") false [.text ("\"" ++ name ++ "\" = 'x'")] =
      .ok (.text (quotedCondition name)) := by
    have hcondition : "" ++ "(" ++ Text.joinWith " and " ["\"" ++ name ++ "\" = 'x'"] ++ ")" =
        quotedCondition name := by
      rw [← String.toList_inj, toList_quotedCondition]
      simp [behindName]
    rw [← hcondition]
    rfl
  have hnonempty : plainWriter.isEmpty (.text (quotedCondition name)) = false := by
    refine beq_eq_false_iff_ne.mpr fun hempty => ?_
    have htoList := toList_quotedCondition name
    rw [hempty] at htoList
    cases htoList
  have hgroup : plainWriter.writeNode plan none []
      (.group (.text "and") {} [.rule (Rule.of name .eq (.text "x"))]) =
        pure (some (.text (quotedCondition name))) :=
    Writer.writeNode_group rfl (.cons (fun path _ => hmember path) .nil) (List.cons_ne_nil _ _)
      hjoin hnonempty
  have hresolve : quoting.resolve = .ok plan := rfl
  rw [Query.format_eq_write hresolve rfl (.rule _), Query.write, plain, Writer.within_none,
    Writer.run_of_not_validate _ _ rfl, Node.standardRoot_rule, Result.ok_bind, Node.ofChildren,
    hgroup]
  rfl

end Sql

/-- By default a condition is read with the default plan. -/
theorem Query.parse_sql (v : Value) :
    parse (.value v) (.text "sql") .defaults [] = Sql.read {} v :=
  parse_eq_readSource (show reader (.text "sql") = .ok ("sql", Sql.read) from rfl) rfl rfl

/-- **Quoted names.**  A rule on a field comes back from the condition that it is written as,
with the name in double quotes, exactly if no double quote stands in the name. -/
theorem Query.parse_quoted_iff (name : String) :
    ∃ condition, format Sql.quoting (.rule (Rule.of name .eq (.text "x"))) =
        .ok (.value (.text condition)) ∧
      ((∃ combinator flags, parse (.value (.text condition)) (.text "sql") .defaults [] =
          .ok (.group combinator flags [.rule (Rule.of name .eq (.text "x"))])) ↔
        '"' ∉ name.toList) := by
  obtain ⟨n, hn⟩ : ∃ n, Source.closeDoubled? '"' (name.toList ++ '"' :: Sql.behindName) = some n :=
    Text.exists_closeDoubled? (List.mem_append_right _ List.mem_cons_self)
  have hname := Sql.nameOf_extent_iff (by decide) hn
  refine ⟨Sql.quotedCondition name, Sql.format_quoting name, ?_, ?_⟩
  · rintro ⟨combinator, flags, hparse⟩
    rw [parse_sql] at hparse
    have hfield := Sql.nameOf_of_read hn hparse (r := Rule.of name .eq (.text "x"))
      (by rw [Node.rules_group]; simp)
    exact hname.mp (Value.text.inj hfield).symm
  · intro hquote
    exact ⟨.text "and", {}, (parse_sql _).trans (Sql.read_quotedCondition hquote)⟩

/-- The quotes of a name may end it and open another one: two rules are read then. -/
theorem Query.parse_quoted_iff_injected :
    ∃ condition, format Sql.quoting (.rule (Rule.of "a\" = 'x' or \"b" .eq (.text "x"))) =
        .ok (.value (.text condition)) ∧
      parse (.value (.text condition)) (.text "sql") .defaults [] =
        .ok (.group (.text "or") {} [.rule (Rule.of "a" .eq (.text "x")),
          .rule (Rule.of "b" .eq (.text "x"))]) :=
  ⟨_, Sql.format_quoting _, (parse_sql _).trans Sql.read_injected⟩

end RuleTree
