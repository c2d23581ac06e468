import Mathlib.Data.List.Infix
import RuleTree.Proofs.BoundTexts
import RuleTree.Proofs.RoundTrip.TextMatches

/-! # What text matches find

A text match states of a text that another one stands at its start, at its end or anywhere in it,
or that it does not (`Operator.asserts`, `Operator.finds`).  It is written as a pattern of SQL, in
which a percent sign stands for any text and a low line for any character (`Sql.like`), or as a
regular expression (`Pattern.Finds`).

The pattern of SQL is made of the text as it is, so it agrees with the text match exactly if no
wildcard stands in the text (`Sql.agreesWith_around_iff`).  Bound as a parameter, it moreover has
the quotes of the text doubled, and keeps those of its literal if a line ends in it
(`Sql.exists_bound_pattern`).  The regular expression escapes the text.  It finds something else
only at the end of a text, where a dollar sign may stand before a last line break
(`Pattern.agreesWith_ofText_iff`).  What is written and bound for a rule agrees with it
accordingly (`Query.textMatch_agreesWith`).
-/
namespace RuleTree

/-! ### Texts in texts -/

namespace Operator

/-- The text stands where a text match, negated or not, looks for it. -/
def finds (op : Operator) (text subject : List Char) : Prop :=
  if op.anchorsStart then text <+: subject
  else if op.anchorsEnd then text <:+ subject
  else text <:+: subject

instance (op : Operator) (text subject : List Char) : Decidable (op.finds text subject) :=
  inferInstanceAs (Decidable (if op.anchorsStart then text <+: subject
    else if op.anchorsEnd then text <:+ subject else text <:+: subject))

/-- What a text match states, given whether the text was found. -/
def asserts (op : Operator) (found : Prop) : Prop := if op.isNegatedText then ¬found else found

/-- What a pattern finds is what the text match looks for, in every text. -/
def AgreesWith (op : Operator) (text : List Char) (found : List Char → Prop) : Prop :=
  ∀ subject, op.asserts (found subject) ↔ op.asserts (op.finds text subject)

variable {op : Operator} {text subject : List Char}

theorem agreesWith_iff {found : List Char → Prop} :
    op.AgreesWith text found ↔ ∀ subject, found subject ↔ op.finds text subject := by
  refine forall_congr' fun subject => ?_
  unfold asserts
  split
  · exact not_iff_not
  · exact Iff.rfl

theorem finds_iff : op.finds text subject ↔ ∃ before after, subject = before ++ text ++ after ∧
    (op.anchorsStart = true → before = []) ∧ (op.anchorsEnd = true → after = []) := by
  have hone : op.anchorsStart = true → op.anchorsEnd = false := by
    cases op <;> decide
  unfold finds
  cases hstart : op.anchorsStart with
  | true =>
    rw [if_pos rfl, hone hstart]
    constructor
    · rintro ⟨after, rfl⟩
      exact ⟨[], after, rfl, fun _ => rfl, nofun⟩
    · rintro ⟨before, after, rfl, hbefore, -⟩
      rw [hbefore rfl]
      exact List.prefix_append text after
  | false =>
    rw [if_neg Bool.false_ne_true]
    cases op.anchorsEnd with
    | true =>
      rw [if_pos rfl]
      constructor
      · rintro ⟨before, rfl⟩
        exact ⟨before, [], (List.append_nil _).symm, nofun, fun _ => rfl⟩
      · rintro ⟨before, after, rfl, -, hafter⟩
        rw [hafter rfl, List.append_nil]
        exact List.suffix_append before text
    | false =>
      rw [if_neg Bool.false_ne_true]
      constructor
      · rintro ⟨before, after, rfl⟩
        exact ⟨before, after, rfl, nofun, nofun⟩
      · rintro ⟨before, after, rfl, -, -⟩
        exact ⟨before, after, rfl⟩

theorem finds_self (op : Operator) (text : List Char) : op.finds text text :=
  finds_iff.mpr ⟨[], [], (List.append_nil text).symm, fun _ => rfl, fun _ => rfl⟩

theorem finds.sublist (h : op.finds text subject) : text.Sublist subject := by
  obtain ⟨before, after, rfl, -, -⟩ := finds_iff.mp h
  exact (List.sublist_append_right before text).trans (List.sublist_append_left _ after)

end Operator

/-! ### Patterns of SQL -/

namespace Sql
open Text

/-- Whether a text is like a pattern. -/
def like : List Char → List Char → Bool
  | [], subject => subject.isEmpty
  | c :: pattern, subject =>
    if c = '%' then subject.tails.any fun rest => like pattern rest
    else match subject with
      | [] => false
      | d :: rest => (c = '_' || c = d) && like pattern rest

/-- No wildcard stands in a text. -/
def IsVerbatim (cs : List Char) : Prop := '%' ∉ cs ∧ '_' ∉ cs

instance (cs : List Char) : Decidable (IsVerbatim cs) := inferInstanceAs (Decidable (_ ∧ _))

section
variable {c : Char} {pattern subject : List Char}

theorem like_nil_iff : like [] subject = true ↔ subject = [] := by
  rw [like, List.isEmpty_iff]

theorem like_percent_iff : like ('%' :: pattern) subject = true ↔
    ∃ before after, subject = before ++ after ∧ like pattern after = true := by
  have hlike : like ('%' :: pattern) subject =
      subject.tails.any fun rest => like pattern rest := rfl
  rw [hlike, List.any_eq_true]
  constructor
  · rintro ⟨after, hafter, hrest⟩
    obtain ⟨before, rfl⟩ := (List.mem_tails after subject).mp hafter
    exact ⟨before, after, rfl, hrest⟩
  · rintro ⟨before, after, rfl, hrest⟩
    exact ⟨after, (List.mem_tails after _).mpr (List.suffix_append before after), hrest⟩

theorem like_cons_iff (hc : c ≠ '%') : like (c :: pattern) subject = true ↔
    ∃ d rest, subject = d :: rest ∧ (c = '_' ∨ c = d) ∧ like pattern rest = true := by
  rw [like.eq_def]
  cases subject with
  | nil => simp [hc]
  | cons d rest => simp [hc]

/-- A text is like two patterns in a row if it is in two parts like them. -/
theorem like_append_iff (first second : List Char) : like (first ++ second) subject = true ↔
    ∃ before after, subject = before ++ after ∧ like first before = true ∧
      like second after = true := by
  induction first generalizing subject with
  | nil =>
    constructor
    · exact fun h => ⟨[], subject, rfl, like_nil_iff.mpr rfl, h⟩
    · rintro ⟨before, after, rfl, hbefore, hafter⟩
      rw [like_nil_iff.mp hbefore]
      exact hafter
  | cons c first ih =>
    rw [List.cons_append]
    by_cases hc : c = '%'
    · subst hc
      rw [like_percent_iff]
      constructor
      · rintro ⟨skipped, rest, rfl, hrest⟩
        obtain ⟨before, after, rfl, hbefore, hafter⟩ := ih.mp hrest
        exact ⟨skipped ++ before, after, (List.append_assoc ..).symm,
          like_percent_iff.mpr ⟨skipped, before, rfl, hbefore⟩, hafter⟩
      · rintro ⟨_, after, rfl, hfirst, hafter⟩
        obtain ⟨skipped, before, rfl, hbefore⟩ := like_percent_iff.mp hfirst
        exact ⟨skipped, before ++ after, List.append_assoc ..,
          ih.mpr ⟨before, after, rfl, hbefore, hafter⟩⟩
    · rw [like_cons_iff hc]
      constructor
      · rintro ⟨d, rest, rfl, hd, hrest⟩
        obtain ⟨before, after, rfl, hbefore, hafter⟩ := ih.mp hrest
        exact ⟨d :: before, after, rfl, (like_cons_iff hc).mpr ⟨d, before, rfl, hd, hbefore⟩,
          hafter⟩
      · rintro ⟨_, after, rfl, hfirst, hafter⟩
        obtain ⟨d, before, rfl, hd, hbefore⟩ := (like_cons_iff hc).mp hfirst
        exact ⟨d, before ++ after, rfl, hd, ih.mpr ⟨before, after, rfl, hbefore, hafter⟩⟩

/-- Without wildcards a pattern is like itself only. -/
theorem like_iff_eq (h : IsVerbatim pattern) : like pattern subject = true ↔ subject = pattern := by
  induction pattern generalizing subject with
  | nil => exact like_nil_iff
  | cons c pattern ih =>
    obtain ⟨hpercent, hlow⟩ := h
    rw [List.mem_cons, not_or] at hpercent hlow
    rw [like_cons_iff (Ne.symm hpercent.1)]
    constructor
    · rintro ⟨d, rest, rfl, hd, hrest⟩
      rw [(ih ⟨hpercent.2, hlow.2⟩).mp hrest, hd.resolve_left (Ne.symm hlow.1)]
    · rintro rfl
      exact ⟨c, pattern, rfl, .inr rfl, (ih ⟨hpercent.2, hlow.2⟩).mpr rfl⟩

/-- A text without wildcards that is like a pattern. -/
def filled (pattern : List Char) : List Char :=
  pattern.flatMap fun c => if c = '%' then [] else if c = '_' then ['a'] else [c]

theorem like_filled (pattern : List Char) : like pattern (filled pattern) = true := by
  induction pattern with
  | nil => rfl
  | cons c pattern ih =>
    by_cases hpercent : c = '%'
    · subst hpercent
      exact like_percent_iff.mpr ⟨[], filled pattern, rfl, ih⟩
    · rw [like_cons_iff hpercent]
      refine ⟨if c = '_' then 'a' else c, filled pattern, ?_, ?_, ih⟩
      · rw [filled, List.flatMap_cons, if_neg hpercent]
        split <;> rfl
      · by_cases hlow : c = '_' <;> simp [hlow]

theorem isVerbatim_filled (pattern : List Char) : IsVerbatim (filled pattern) := by
  have hone {w : Char} (hw : w = '%' ∨ w = '_') : w ∉ filled pattern := by
    rw [filled, List.mem_flatMap]
    rintro ⟨c, -, hc⟩
    split at hc
    · cases hc
    · rename_i hpercent
      split at hc
      · rw [List.mem_singleton.mp hc] at hw
        exact absurd hw (by decide)
      · rename_i hlow
        rw [List.mem_singleton.mp hc] at hw
        exact hw.elim hpercent hlow
  exact ⟨hone (.inl rfl), hone (.inr rfl)⟩

end

/-! ### Patterns of text matches -/

section
variable {op : Operator} {core text subject : List Char}

/-- The pattern of a text match around a core. -/
def around (op : Operator) (core : List Char) : List Char :=
  (if op.anchorsStart then [] else ['%']) ++ core ++ (if op.anchorsEnd then [] else ['%'])

theorem toList_likePattern (op : Operator) (s : String) :
    (likePattern op (.text s)).toList = around op s.toList := by
  unfold likePattern around
  cases op <;> simp [Operator.anchorsStart, Operator.anchorsEnd]

/-- What the percent signs skip is nothing where the text match is anchored. -/
theorem like_around_iff : like (around op core) subject = true ↔ ∃ before middle after,
    subject = before ++ middle ++ after ∧ like core middle = true ∧
      (op.anchorsStart = true → before = []) ∧ (op.anchorsEnd = true → after = []) := by
  have hskip (anchors : Bool) (cs : List Char) :
      like (if anchors then [] else ['%']) cs = true ↔ (anchors = true → cs = []) := by
    cases anchors with
    | true => simpa using like_nil_iff
    | false =>
      refine iff_of_true (like_percent_iff.mpr ⟨cs, [], (List.append_nil cs).symm, rfl⟩) nofun
  rw [around, like_append_iff]
  constructor
  · rintro ⟨_, after, rfl, hfirst, hafter⟩
    obtain ⟨before, middle, rfl, hbefore, hmiddle⟩ := (like_append_iff _ _).mp hfirst
    exact ⟨before, middle, after, rfl, hmiddle, (hskip _ _).mp hbefore, (hskip _ _).mp hafter⟩
  · rintro ⟨before, middle, after, rfl, hmiddle, hbefore, hafter⟩
    exact ⟨before ++ middle, after, rfl, (like_append_iff _ _).mpr
      ⟨before, middle, rfl, (hskip _ _).mpr hbefore, hmiddle⟩, (hskip _ _).mpr hafter⟩

theorem like_around (h : like core subject = true) : like (around op core) subject = true :=
  like_around_iff.mpr ⟨[], subject, [], (List.append_nil subject).symm, h, fun _ => rfl,
    fun _ => rfl⟩

/-- A pattern around a core, which has wildcards only if the text has, agrees with the text
match exactly if the core is the text and has none. -/
theorem agreesWith_around_iff (hcore : IsVerbatim text → IsVerbatim core) :
    op.AgreesWith text (fun subject => like (around op core) subject = true) ↔
      core = text ∧ IsVerbatim text := by
  rw [Operator.agreesWith_iff]
  constructor
  · intro h
    -- the filled core has no wildcard to find
    have hfilled : text.Sublist (filled core) := ((h _).mp (like_around (like_filled core))).sublist
    have htext : IsVerbatim text :=
      ⟨fun hc => (isVerbatim_filled core).1 (hfilled.mem hc),
        fun hc => (isVerbatim_filled core).2 (hfilled.mem hc)⟩
    obtain ⟨before, middle, after, htext', hmiddle, -, -⟩ :=
      like_around_iff.mp ((h text).mpr (op.finds_self text))
    rw [like_iff_eq (hcore htext)] at hmiddle
    have hsub : core.Sublist text := by
      rw [htext', hmiddle]
      exact (List.sublist_append_right before core).trans (List.sublist_append_left _ after)
    have hsub' : text.Sublist core :=
      ((h core).mp (like_around ((like_iff_eq (hcore htext)).mpr rfl))).sublist
    exact ⟨hsub.antisymm hsub', htext⟩
  · rintro ⟨rfl, htext⟩ subject
    rw [like_around_iff, Operator.finds_iff]
    simp only [like_iff_eq htext]
    constructor
    · rintro ⟨before, _, after, hsubject, rfl, hanchors⟩
      exact ⟨before, after, hsubject, hanchors⟩
    · rintro ⟨before, after, hsubject, hanchors⟩
      exact ⟨before, core, after, hsubject, rfl, hanchors⟩

/-- What is like a pattern in quotes starts and ends with one. -/
theorem quotes_of_like {pattern : List Char}
    (h : like ('\'' :: (pattern ++ ['\''])) subject = true) :
    subject.head? = some '\'' ∧ subject.getLast? = some '\'' := by
  obtain ⟨d, rest, rfl, hd, hrest⟩ := (like_cons_iff (by decide)).mp h
  obtain ⟨before, after, rfl, -, hafter⟩ := (like_append_iff _ _).mp hrest
  have hverbatim : IsVerbatim ['\''] := by decide
  rw [(like_iff_eq hverbatim).mp hafter, ← List.cons_append, List.getLast?_concat]
  exact ⟨congrArg some (hd.resolve_left (by decide)).symm, rfl⟩

/-- So a pattern in quotes agrees with no text match. -/
theorem not_agreesWith_quoted (op : Operator) (text pattern : List Char) :
    ¬op.AgreesWith text (fun subject => like ('\'' :: (pattern ++ ['\''])) subject = true) := by
  rw [Operator.agreesWith_iff]
  intro h
  cases hends : op.anchorsEnd with
  | true =>
    have hstarts : op.anchorsStart = false := by
      cases op <;> cases hends <;> rfl
    have hfinds : op.finds text ('a' :: text) := Operator.finds_iff.mpr
      ⟨['a'], [], by simp, by simp [hstarts], fun _ => rfl⟩
    have hhead := (quotes_of_like ((h _).mpr hfinds)).1
    exact absurd (Option.some.inj hhead) (by decide)
  | false =>
    have hfinds : op.finds text (text ++ ['a']) := Operator.finds_iff.mpr
      ⟨[], ['a'], rfl, fun _ => rfl, by simp [hends]⟩
    have hlast := (quotes_of_like ((h _).mpr hfinds)).2
    rw [List.getLast?_concat] at hlast
    exact absurd (Option.some.inj hlast) (by decide)

end

/-! ### Parameters -/

theorem doubled_around (op : Operator) (core : List Char) :
    doubled '\'' (around op core) = around op (doubled '\'' core) := by
  unfold around doubled
  rw [List.flatMap_append, List.flatMap_append]
  cases op.anchorsStart <;> cases op.anchorsEnd <;> rfl

theorem isVerbatim_doubled {cs : List Char} (h : IsVerbatim cs) : IsVerbatim (doubled '\'' cs) :=
  ⟨mt mem_doubled.mp h.1, mt mem_doubled.mp h.2⟩

/-- What is bound for a text match is a pattern, which agrees with it exactly if neither a
wildcard nor a quote stands in the text, and no line ends in it. -/
theorem exists_bound_pattern (op : Operator) (s : String) : ∃ pattern : String,
    unquote (.text (textLiteral (likePattern op (.text s)))) = .text pattern ∧
      (op.AgreesWith s.toList (fun subject => like pattern.toList subject = true) ↔
        IsVerbatim s.toList ∧ '\'' ∉ s.toList ∧ '\n' ∉ s.toList) := by
  have hbreak : '\n' ∈ (likePattern op (.text s)).toList ↔ '\n' ∈ s.toList := by
    rw [toList_likePattern, around]
    cases op.anchorsStart <;> cases op.anchorsEnd <;> simp
  by_cases hlines : '\n' ∈ s.toList
  · refine ⟨_, unquote_textLiteral_lines (hbreak.mpr hlines), iff_of_false ?_ fun h => h.2.2 hlines⟩
    rw [toList_textLiteral]
    exact not_agreesWith_quoted op _ _
  · refine ⟨_, unquote_textLiteral_line (mt hbreak.mp hlines), ?_⟩
    rw [toList_doubleQuotes, toList_likePattern, doubled_around,
      agreesWith_around_iff isVerbatim_doubled, doubled_eq_self_iff]
    tauto

end Sql

/-! ### Regular expressions -/

namespace Pattern

/-- Whether a literal pattern finds its text in another.  `finalBreak` tells whether the dollar
sign stands before a last line break too, on which engines differ. -/
def Finds (finalBreak : Bool) (pattern subject : List Char) : Prop :=
  ∃ starts ends body text before after, pattern = anchored starts ends body ∧
    Spells Char.isAlphanum body text ∧ subject = before ++ text ++ after ∧
    (starts = true → before = []) ∧
    (ends = true → after = [] ∨ finalBreak = true ∧ after = ['\n'])

/-- A text moves by one character only over its own last one. -/
theorem eq_of_concat_eq_cons {cs : List Char} {c d : Char} (h : cs ++ [c] = d :: cs) :
    d = c ∧ ∀ e ∈ cs, e = c := by
  induction cs generalizing d with
  | nil => exact ⟨(List.head_eq_of_cons_eq h).symm, nofun⟩
  | cons e cs ih =>
    obtain ⟨rfl, hrest⟩ := List.cons.inj h
    obtain ⟨rfl, hall⟩ := ih hrest
    exact ⟨rfl, List.forall_mem_cons.mpr ⟨rfl, hall⟩⟩

section
variable {op : Operator} (hop : op.isTextMatch = true) (finalBreak : Bool) (s : String)
include hop

/-- The pattern of a text match finds the text. -/
theorem finds_ofText_iff {subject : List Char} : Finds finalBreak (ofText op s).toList subject ↔
    ∃ before after, subject = before ++ s.toList ++ after ∧
      (op.anchorsStart = true → before = []) ∧
      (op.anchorsEnd = true → after = [] ∨ finalBreak = true ∧ after = ['\n']) := by
  have hspells := spells_escape s.toList
  constructor
  · rintro ⟨starts, ends, body, text, before, after, hpattern, h, hsubject, hanchors⟩
    rw [toList_ofText hop] at hpattern
    obtain ⟨rfl, rfl, rfl⟩ := hspells.anchored_inj h hpattern
    rw [hspells.eq h] at hsubject
    exact ⟨before, after, hsubject, hanchors⟩
  · rintro ⟨before, after, hsubject, hanchors⟩
    exact ⟨_, _, _, _, before, after, toList_ofText hop s, hspells, hsubject, hanchors⟩

/-- It agrees with the text match, unless the dollar sign may stand before a last line break and
the text is not all line breaks. -/
theorem agreesWith_ofText_iff :
    op.AgreesWith s.toList (Finds finalBreak (ofText op s).toList) ↔
      (finalBreak = true → op.anchorsEnd = true → ∀ c ∈ s.toList, c = '\n') := by
  rw [Operator.agreesWith_iff]
  constructor
  · intro h hfinal hends
    have hfound : op.finds s.toList (s.toList ++ ['\n']) := (h _).mp <|
      (finds_ofText_iff hop finalBreak s).mpr
        ⟨[], ['\n'], rfl, fun _ => rfl, fun _ => .inr ⟨hfinal, rfl⟩⟩
    obtain ⟨before, after, heq, -, hafter⟩ := Operator.finds_iff.mp hfound
    rw [hafter hends, List.append_nil] at heq
    obtain ⟨d, rfl⟩ : ∃ d, before = [d] := by
      have hlength := congrArg List.length heq
      simp only [List.length_append, List.length_singleton] at hlength
      exact List.length_eq_one_iff.mp (by omega)
    exact (eq_of_concat_eq_cons heq).2
  · intro h subject
    rw [finds_ofText_iff hop, Operator.finds_iff]
    constructor
    · rintro ⟨before, after, rfl, hbefore, hafter⟩
      by_cases hends : op.anchorsEnd = true
      · rcases hafter hends with rfl | ⟨hfinal, rfl⟩
        · exact ⟨before, [], rfl, hbefore, fun _ => rfl⟩
        -- what is all line breaks stands behind one of them as well
        · have hbreaks : s.toList ++ ['\n'] = '\n' :: s.toList := by
            rw [List.eq_replicate_of_mem (h hfinal hends), ← List.replicate_succ',
              List.replicate_succ]
          have hstarts : op.anchorsStart = false := by
            cases op <;> cases hends <;> rfl
          refine ⟨before ++ ['\n'], [], ?_, by simp [hstarts], fun _ => rfl⟩
          rw [List.append_assoc, hbreaks]
          simp
      · exact ⟨before, after, rfl, hbefore, fun h => absurd h hends⟩
    · rintro ⟨before, after, rfl, hbefore, hafter⟩
      exact ⟨before, after, rfl, hbefore, fun hends => .inl (hafter hends)⟩

end

end Pattern

/-! ### Rules -/

namespace Sql
open Text

/-- The condition that a field is like what is written behind it, or that it is not. -/
def likeClause (style : Style) (op : Operator) (field written : String) : String :=
  trim (fieldText style (.text field) ++ " " ++ (if op.isNegatedText then "not like" else "like") ++
    " " ++ written)

section
variable {op : Operator} (hop : op.isTextMatch = true) (field s : String) {plan : FormatPlan}
  (hhook : plan.valueHook = .absent)
include hop

theorem sqlSpelling_textMatch :
    Dialect.sqlSpelling op = if op.isNegatedText then "not like" else "like" := by
  cases op <;> cases hop <;> rfl

theorem suppliesText_textMatch (policy : NumberPolicy) :
    SuppliesText policy (.of field op (.text s)) op s :=
  ⟨by simp [Rule.operator?, Rule.of], rfl, rfl, .inl hop⟩

include hhook

/-- In plain SQL a text match has its pattern as a literal. -/
theorem plainRule_textMatch : plainRule plan (.of field op (.text s)) =
    .ok (likeClause plan.style op field (textLiteral (likePattern op (.text s)))) := by
  have hr := suppliesText_textMatch hop field s plan.style.policy
  obtain ⟨hnull, hmember, hrange⟩ := hr.operator_kind
  have hclause (written : String) : plainClause plan.style op (.of field op (.text s)) written =
      likeClause plan.style op field written := by
    unfold plainClause likeClause
    rw [← sqlSpelling_textMatch hop]
    simp [hnull, hmember, hrange, Rule.of]
  rw [plainRule_eq hr.operator hhook, hr.valueText_eq, comparand, if_pos hop]
  exact congrArg Except.ok (hclause _)

/-- With parameters it binds what is left of the literal. -/
theorem ruleSkeleton_textMatch {d : Dialect} (hd : d = .parameterized ∨ d = .parameterizedNamed)
    (hformat : plan.style.format = .dialect d) :
    ruleSkeleton plan (.of field op (.text s)) =
      .ok ⟨[.text (fieldText plan.style (.text field) ++ " " ++
          (if op.isNegatedText then "not like" else "like") ++ " "),
        .param (unquote (.text (textLiteral (likePattern op (.text s)))))], true⟩ := by
  have hr := suppliesText_textMatch hop field s plan.style.policy
  rw [hr.ruleSkeleton_eq hd hformat hhook, sqlSpelling_textMatch hop, comparand, if_pos hop]
  rfl

end

end Sql

namespace Query
open Sql

/-- **Text matches.**  For a text without wildcards, the pattern that is written for a text match
in SQL agrees with it, and the one that is bound for it, by position or by name, agrees with it
exactly if no quote stands in the text, as long as no line ends there.  The regular expression
agrees with it for every text, if a dollar sign stands at the end only or there is none. -/
theorem textMatch_agreesWith {op : Operator} (hop : op.isTextMatch = true) (field s : String)
    {plan : FormatPlan} (hhook : plan.valueHook = .absent) :
    (IsVerbatim s.toList → ∃ pattern : String,
      plainRule plan (.of field op (.text s)) =
        .ok (likeClause plan.style op field (textLiteral pattern)) ∧
      op.AgreesWith s.toList (fun subject => like pattern.toList subject = true)) ∧
    (IsVerbatim s.toList → '\n' ∉ s.toList → ∃ pattern : String,
      (plan.style.format = .dialect .parameterized → ∀ context asked, ∃ mark,
        boundRule plan (.of field op (.text s)) context asked =
          .ok (⟨.text (likeClause plan.style op field mark), .list [.text pattern]⟩, asked)) ∧
      (plan.style.format = .dialect .parameterizedNamed → ∀ source, plan.names = .given source →
        ∀ asked name, source (.text field) asked = .ok name → ∀ context, ∃ mark,
          boundRule plan (.of field op (.text s)) context asked =
            .ok (⟨.text (likeClause plan.style op field mark),
              .map [(Binding.key plan.style name, .text pattern)]⟩, .text field :: asked)) ∧
      (op.AgreesWith s.toList (fun subject => like pattern.toList subject = true) ↔
        '\'' ∉ s.toList)) ∧
    ∃ pattern : String,
      Mongo.writeRule plan (.of field op (.text s)) =
        .ok (Mongo.patternMatch op (.text pattern) field) ∧
      ∀ finalBreak, (finalBreak = true → op.anchorsEnd = false) →
        op.AgreesWith s.toList (Pattern.Finds finalBreak pattern.toList) := by
  refine ⟨fun hverbatim => ⟨_, plainRule_textMatch hop field s hhook, ?_⟩,
    fun hverbatim hline => ?_, _, Mongo.writeRule_textMatch hop hhook field s,
    fun finalBreak hanchor => ?_⟩
  · rw [toList_likePattern]
    exact (agreesWith_around_iff id).mpr ⟨rfl, hverbatim⟩
  · obtain ⟨pattern, hpattern, hagrees⟩ := exists_bound_pattern op s
    refine ⟨pattern, fun hformat context asked => ?_,
      fun hformat source hnames asked name hname context => ?_, ?_⟩
    · have hskeleton := ruleSkeleton_textMatch hop field s hhook (.inl rfl) hformat
      rw [hpattern] at hskeleton
      exact boundRule_positional context asked hformat hskeleton
    · have hskeleton := ruleSkeleton_textMatch hop field s hhook (.inr rfl) hformat
      rw [hpattern] at hskeleton
      exact boundRule_named context asked hformat hskeleton hnames hname
    · rw [hagrees, and_iff_right hverbatim, and_iff_left hline]
  · refine (Pattern.agreesWith_ofText_iff hop finalBreak s).mpr fun hfinal hends => ?_
    rw [hanchor hfinal] at hends
    cases hends

/-- That a name does not contain a text with a dot and a backslash. -/
theorem textMatch_agreesWith_specimen :
    (∃ pattern, plainRule { style := { format := .dialect .sql } }
          (.of "name" .doesNotContain (.text ".\\")) =
        .ok (likeClause { format := .dialect .sql } .doesNotContain "name" (textLiteral pattern)) ∧
      Operator.doesNotContain.AgreesWith ".\\".toList
        (fun subject => like pattern.toList subject = true)) ∧
    (∃ mark pattern, boundRule { style := { format := .dialect .parameterized } }
          (.of "name" .doesNotContain (.text ".\\")) none [] =
        .ok (⟨.text (likeClause { format := .dialect .parameterized } .doesNotContain "name" mark),
          .list [.text pattern]⟩, []) ∧
      Operator.doesNotContain.AgreesWith ".\\".toList
        (fun subject => like pattern.toList subject = true)) ∧
    (∃ mark pattern, boundRule
          { style := { format := .dialect .parameterizedNamed }, names := .given .perField }
          (.of "name" .doesNotContain (.text ".\\")) none [] =
        .ok (⟨.text (likeClause { format := .dialect .parameterizedNamed } .doesNotContain "name"
          mark), .map [("name_1", .text pattern)]⟩, [.text "name"]) ∧
      Operator.doesNotContain.AgreesWith ".\\".toList
        (fun subject => like pattern.toList subject = true)) ∧
    ∃ pattern, Mongo.writeRule { style := { format := .dialect .mongodb } }
          (.of "name" .doesNotContain (.text ".\\")) =
        .ok (Mongo.patternMatch .doesNotContain (.text pattern) "name") ∧
      ∀ finalBreak, Operator.doesNotContain.AgreesWith ".\\".toList
        (Pattern.Finds finalBreak pattern.toList) := by
  have hop : Operator.doesNotContain.isTextMatch = true := rfl
  have hverbatim : IsVerbatim ".\\".toList := by decide
  have hquote : '\'' ∉ ".\\".toList := by decide
  have hline : '\n' ∉ ".\\".toList := by decide
  have hplan (format : Format) (names : Hook NameSource) :
      ({ style := { format := format }, names := names } : FormatPlan).valueHook = .absent := rfl
  refine ⟨?_, ?_, ?_, ?_⟩
  · obtain ⟨hplain, -, -⟩ :=
      textMatch_agreesWith hop "name" ".\\" (hplan (.dialect .sql) .absent)
    exact hplain hverbatim
  · obtain ⟨-, hbound, -⟩ :=
      textMatch_agreesWith hop "name" ".\\" (hplan (.dialect .parameterized) .absent)
    obtain ⟨pattern, hrule, -, hagrees⟩ := hbound hverbatim hline
    obtain ⟨mark, hrule⟩ := hrule rfl none []
    exact ⟨mark, pattern, hrule, hagrees.mpr hquote⟩
  · obtain ⟨-, hbound, -⟩ := textMatch_agreesWith hop "name" ".\\"
      (hplan (.dialect .parameterizedNamed) (.given .perField))
    obtain ⟨pattern, -, hrule, hagrees⟩ := hbound hverbatim hline
    obtain ⟨mark, hrule⟩ := hrule rfl .perField rfl [] "name_1" rfl none
    exact ⟨mark, pattern, hrule, hagrees.mpr hquote⟩
  · obtain ⟨-, -, pattern, hrule, hagrees⟩ :=
      textMatch_agreesWith hop "name" ".\\" (hplan (.dialect .mongodb) .absent)
    exact ⟨pattern, hrule, fun finalBreak => hagrees finalBreak fun _ => rfl⟩

/-- The quote of a bound text is doubled, and a pattern with two quotes does not find it. -/
theorem textMatch_agreesWith_quote :
    boundRule { style := { format := .dialect .parameterized } }
        (.of "a" .contains (.text "it's")) none [] =
      .ok (⟨.text "a like ?", .list [.text "%it''s%"]⟩, []) ∧
    ¬Operator.contains.AgreesWith "it's".toList
      (fun subject => like "%it''s%".toList subject = true) := by
  refine ⟨rfl, fun h => ?_⟩
  have hlike := (Operator.agreesWith_iff.mp h "it's".toList).mpr (by decide)
  exact absurd hlike (by decide)

/-- A wildcard of a text stays one in the pattern, which then finds more than the text. -/
theorem textMatch_agreesWith_wildcard :
    plainRule {} (.of "a" .contains (.text "50%")) = .ok "a like '%50%%'" ∧
    ¬Operator.contains.AgreesWith "50%".toList
      (fun subject => like "%50%%".toList subject = true) := by
  refine ⟨rfl, fun h => ?_⟩
  have hcontains := (Operator.agreesWith_iff.mp h "50x".toList).mp (by decide)
  exact absurd hcontains (by decide)

end Query
end RuleTree
