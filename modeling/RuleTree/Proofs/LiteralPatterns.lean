import Mathlib.Data.List.Basic
import Mathlib.Tactic.ByContra
import RuleTree.Mongo.Pattern
import RuleTree.Proofs.Canonical

/-! # Literal patterns

A pattern is literal if it is a body between anchors, either of which may be missing, and the
body spells a text (`Pattern.Spells`): its characters mean no more than themselves, or are
escaped by a backslash.  A letter or a digit is not escaped that way, as a backslash gives it
another meaning.

No literal pattern is refused, and the rule of one has the operator of its anchors and the text
of its body, if the pattern is well escaped (`Pattern.WellEscaped`).  Whether a character is
escaped is told by the character before it alone, and a backslash is taken away whatever it
escapes, so other patterns are accepted that should not be, or are read as another text
(`Pattern.rule_answers_iff`).
-/
namespace RuleTree

theorem Operator.toValue_injective : Function.Injective Operator.toValue := fun op op' h =>
  Option.some.inj ((ofValue?_toValue op).symm.trans (h ▸ ofValue?_toValue op'))

namespace Pattern

/-! ### What a body spells -/

section
variable (reserved : Char → Bool)

/-- A body spells a text.  The reserved characters, letters and digits, mean something else
behind a backslash. -/
inductive Spells : List Char → List Char → Prop where
  | nil : Spells [] []
  | plain {c : Char} {body text : List Char} : c ∉ metaCharacters → c ≠ '\\' →
      Spells body text → Spells (c :: body) (c :: text)
  | escaped {c : Char} {body text : List Char} : reserved c = false →
      Spells body text → Spells ('\\' :: c :: body) (c :: text)

/-- The pattern of a body with the given anchors. -/
def anchored (starts ends : Bool) (body : List Char) : List Char :=
  (if starts then ['^'] else []) ++ body ++ (if ends then ['$'] else [])

/-- The operator of a text match with the given anchors. -/
def anchorOperator : Bool → Bool → Operator
  | true, true => .eq
  | true, false => .beginsWith
  | false, true => .endsWith
  | false, false => .contains

/-- A body between anchors that spells a text. -/
def IsLiteral (pattern : List Char) : Prop :=
  ∃ starts ends body text, pattern = anchored starts ends body ∧ Spells reserved body text

/-- The answer that a pattern should have: the rule of its anchors and of the text that its
body spells, or none if it is not literal. -/
def Answers (dialect field : Value) (pattern : List Char) (answer : Result Rule) : Prop :=
  (∃ starts ends body text, pattern = anchored starts ends body ∧ Spells reserved body text ∧
    answer = .ok {
      field := field
      operator := (anchorOperator starts ends).toValue
      value := .text (String.ofList text) }) ∨
  ¬IsLiteral reserved pattern ∧ answer = .error (.unrepresentable (.text (token dialect)) dialect)

/-- Every backslash of a pattern escapes a character that is neither reserved nor a line break,
and behind an escaped backslash comes none that means more than itself. -/
inductive WellEscaped : List Char → Prop where
  | nil : WellEscaped []
  | other {c : Char} {cs : List Char} : c ≠ '\\' → WellEscaped cs → WellEscaped (c :: cs)
  | escape {c : Char} {cs : List Char} : reserved c = false → c ≠ '\n' →
      (c = '\\' → ∀ d ∈ cs.head?, d ∉ metaCharacters) → WellEscaped cs →
      WellEscaped ('\\' :: c :: cs)

end

section
variable {reserved : Char → Bool} {body text : List Char}

theorem Spells.of_plain {c : Char} {whole : List Char} (h : Spells reserved (c :: body) whole)
    (hc : c ≠ '\\') : ∃ text, whole = c :: text ∧ Spells reserved body text := by
  cases h with
  | plain _ _ h => exact ⟨_, rfl, h⟩
  | escaped => exact absurd rfl hc

theorem Spells.of_escaped {c : Char} {whole : List Char}
    (h : Spells reserved ('\\' :: c :: body) whole) :
    reserved c = false ∧ ∃ text, whole = c :: text ∧ Spells reserved body text := by
  cases h with
  | plain _ hbackslash => exact absurd rfl hbackslash
  | escaped hreserved h => exact ⟨hreserved, _, rfl, h⟩

/-- A body that spells a text and goes on spells the rest of what the whole spells. -/
theorem Spells.exists_append (h : Spells reserved body text) {rest whole : List Char}
    (hwhole : Spells reserved (body ++ rest) whole) :
    ∃ behind, Spells reserved rest behind ∧ whole = text ++ behind := by
  induction h generalizing whole with
  | nil => exact ⟨whole, hwhole, rfl⟩
  | plain _ hbackslash _ ih =>
    obtain ⟨after, rfl, hafter⟩ := hwhole.of_plain hbackslash
    obtain ⟨behind, hbehind, rfl⟩ := ih hafter
    exact ⟨behind, hbehind, rfl⟩
  | escaped _ _ ih =>
    obtain ⟨-, after, rfl, hafter⟩ := hwhole.of_escaped
    obtain ⟨behind, hbehind, rfl⟩ := ih hafter
    exact ⟨behind, hbehind, rfl⟩

/-- A body spells one text only. -/
theorem Spells.eq (h : Spells reserved body text) {other : List Char}
    (hother : Spells reserved body other) : other = text := by
  obtain ⟨behind, hbehind, rfl⟩ := h.exists_append (by rwa [List.append_nil])
  cases hbehind
  exact List.append_nil text

theorem Spells.head?_notMem (h : Spells reserved body text) :
    ∀ c ∈ body.head?, c ∉ metaCharacters := by
  rintro c hc
  cases h with
  | nil => cases hc
  | plain hmeta => rwa [← Option.some.inj hc]
  | escaped =>
    rw [← Option.some.inj hc]
    decide

/-- Nothing in a body means more than itself. -/
theorem Spells.hasMeta (h : Spells reserved body text) (escaped : Bool) :
    hasMeta escaped body = false := by
  have hbackslash : metaCharacters.contains '\\' = false := by decide
  induction h generalizing escaped with
  | nil => rfl
  | plain hmeta _ _ ih =>
    rw [Pattern.hasMeta, ih, Bool.eq_false_iff.mpr (mt List.contains_iff_mem.mp hmeta)]
    simp
  | escaped _ _ ih =>
    rw [Pattern.hasMeta, Pattern.hasMeta, ih, hbackslash]
    simp

/-! ### Escapes -/

theorem wellEscaped_cons_iff {c : Char} {cs : List Char} (hc : c ≠ '\\') :
    WellEscaped reserved (c :: cs) ↔ WellEscaped reserved cs := by
  refine ⟨fun h => ?_, .other hc⟩
  cases h with
  | other _ h => exact h
  | escape => exact absurd rfl hc

theorem wellEscaped_escape_iff {c : Char} {cs : List Char} :
    WellEscaped reserved ('\\' :: c :: cs) ↔ (reserved c = false ∧ c ≠ '\n' ∧
      (c = '\\' → ∀ d ∈ cs.head?, d ∉ metaCharacters)) ∧ WellEscaped reserved cs := by
  refine ⟨fun h => ?_, fun ⟨⟨hreserved, hbreak, hbehind⟩, h⟩ => .escape hreserved hbreak hbehind h⟩
  cases h with
  | other hbackslash => exact absurd rfl hbackslash
  | escape hreserved hbreak hbehind h => exact ⟨⟨hreserved, hbreak, hbehind⟩, h⟩

theorem unescape_cons {c : Char} (hc : c ≠ '\\') (cs : List Char) :
    unescape (c :: cs) = c :: unescape cs := by
  rw [unescape]
  · exact fun hbackslash _ => hc hbackslash
  · exact fun _ _ hbackslash _ => hc hbackslash

/-- Taking the backslashes away gives the text exactly if no line break is escaped. -/
theorem Spells.unescape_eq_iff (h : Spells reserved body text) :
    unescape body = text ↔ WellEscaped reserved body := by
  induction h with
  | nil => simp [unescape, WellEscaped.nil]
  | plain _ hbackslash _ ih =>
    rw [unescape_cons hbackslash, wellEscaped_cons_iff hbackslash, List.cons.injEq, ih]
    simp
  | @escaped c body text hreserved h ih =>
    rw [unescape, wellEscaped_escape_iff, ← ih]
    by_cases hc : c = '\n'
    · subst hc
      simp
    · simpa [hc, hreserved] using fun _ _ => h.head?_notMem

/-- A body in which nothing means more than itself spells the text without the backslashes. -/
theorem WellEscaped.spells {cs : List Char} (h : WellEscaped reserved cs)
    (hplain : hasMeta false cs = false) : Spells reserved cs (unescape cs) := by
  induction h with
  | nil => exact .nil
  | @other c cs hc _ ih =>
    have hnext : (c == '\\') = false := beq_eq_false_iff_ne.mpr hc
    rw [hasMeta, hnext] at hplain
    obtain ⟨hmeta, hrest⟩ := Bool.or_eq_false_iff.mp hplain
    rw [unescape_cons hc]
    exact .plain (by simpa using hmeta) hc (ih hrest)
  | @escape c cs hreserved hbreak hbehind _ ih =>
    have hrest : hasMeta false cs = false := by
      rw [hasMeta, hasMeta] at hplain
      have hafter : hasMeta (c == '\\') cs = false := (Bool.or_eq_false_iff.mp
        (Bool.or_eq_false_iff.mp hplain).2).2
      by_cases hc : c = '\\'
      -- what an escaped backslash escapes by mistake has no meaning to lose
      · cases cs with
        | nil => rfl
        | cons d cs =>
          have hd : d ∉ metaCharacters := hbehind hc d rfl
          simpa [hasMeta, hc, hd] using hafter
      · rwa [beq_eq_false_iff_ne.mpr hc] at hafter
    rw [unescape, if_neg hbreak]
    exact .escaped hreserved (ih hrest)

/-- What stands before an anchor is well escaped if the whole is. -/
theorem WellEscaped.of_concat_dollar {cs body : List Char} (h : WellEscaped reserved cs)
    (hcs : cs = body ++ ['$']) (hlast : body.getLast? ≠ some '\\') :
    WellEscaped reserved body := by
  induction h generalizing body with
  | nil => simp at hcs
  | other hc _ ih =>
    cases body with
    | nil => exact .nil
    | cons d body =>
      obtain ⟨hd, hrest⟩ := List.cons.inj hcs
      subst hd
      refine .other hc (ih hrest fun h => hlast ?_)
      rw [List.getLast?_cons, h]
      rfl
  | escape hreserved hbreak hbehind _ ih =>
    rcases body with _ | ⟨d, _ | ⟨e, body⟩⟩
    · simp at hcs
    · obtain ⟨rfl, -⟩ := List.cons.inj hcs
      exact absurd rfl hlast
    · obtain ⟨rfl, rfl, rfl⟩ : '\\' = d ∧ _ = e ∧ _ = body ++ ['$'] := by simpa using hcs
      refine .escape hreserved hbreak (fun hc f hf => hbehind hc f ?_) (ih rfl fun h => hlast ?_)
      · rw [List.head?_append, hf]
        rfl
      · rw [List.getLast?_cons, List.getLast?_cons, h]
        rfl

theorem Spells.wellEscaped_concat_dollar (h : Spells reserved body text) :
    WellEscaped reserved (body ++ ['$']) ↔
      WellEscaped reserved body ∧ body.getLast? ≠ some '\\' := by
  induction h with
  | nil => simp [wellEscaped_cons_iff, WellEscaped.nil]
  | @plain c body text _ hbackslash _ ih =>
    rw [List.cons_append, wellEscaped_cons_iff hbackslash, wellEscaped_cons_iff hbackslash, ih]
    cases body <;> simp [hbackslash]
  | @escaped c body text hreserved h ih =>
    rw [List.cons_append, List.cons_append, wellEscaped_escape_iff, wellEscaped_escape_iff, ih]
    cases body with
    | nil =>
      have hmeta : '$' ∈ metaCharacters := by decide
      simp [hreserved, hmeta, WellEscaped.nil]
    | cons d body => simp [and_assoc]

/-! ### Anchors -/

theorem endsAnchored_of_getLast? {cs : List Char} (h : cs.getLast? ≠ some '$') :
    endsAnchored cs = false := by
  rw [List.getLast?_eq_head?_reverse] at h
  unfold endsAnchored
  split
  case h_1 => rfl
  case h_2 hreverse => exact absurd (by rw [hreverse]; rfl) h
  case h_3 => rfl

/-- An anchored end is a dollar sign without a backslash before it. -/
theorem endsAnchored_concat (init : List Char) (c : Char) :
    endsAnchored (init ++ [c]) = (c == '$' && init.getLast? != some '\\') := by
  rw [endsAnchored, List.reverse_append, List.getLast?_eq_head?_reverse]
  cases init.reverse with
  | nil => by_cases hc : c = '$' <;> simp [hc]
  | cons d ds => by_cases hc : c = '$' <;> by_cases hd : d = '\\' <;> simp [hc, hd]

/-- The last character means more than itself if it is special and no backslash stands before
it. -/
theorem hasMeta_concat (escaped : Bool) (init : List Char) (c : Char) :
    hasMeta escaped (init ++ [c]) = (hasMeta escaped init ||
      !(if init = [] then escaped else init.getLast? == some '\\') &&
        metaCharacters.contains c) := by
  induction init generalizing escaped with
  | nil => simp [hasMeta]
  | cons d init ih =>
    rw [List.cons_append, hasMeta, hasMeta, ih, Bool.or_assoc]
    cases init with
    | nil => simp
    | cons e init => simp [List.getLast?_cons_cons]

theorem getLast?_caret_append (starts : Bool) (body : List Char) :
    (((if starts then ['^'] else []) ++ body).getLast? == some '\\') =
      (body.getLast? == some '\\') := by
  cases starts <;> cases body <;> simp

/-- A literal pattern is anchored at its end if it has an anchor there that no escaped
backslash hides. -/
theorem Spells.endsAnchored_anchored (h : Spells reserved body text) (starts ends : Bool) :
    endsAnchored (anchored starts ends body) = (ends && body.getLast? != some '\\') := by
  cases ends with
  | true =>
    rw [anchored, if_pos rfl, endsAnchored_concat, bne, bne, getLast?_caret_append]
    rfl
  | false =>
    rw [anchored, if_neg Bool.false_ne_true, List.append_nil]
    rcases List.eq_nil_or_concat body with rfl | ⟨init, c, rfl⟩
    · cases starts <;> rfl
    · rw [List.concat_eq_append] at h ⊢
      -- an anchor would mean more than itself in the body
      have hplain := h.hasMeta false
      rw [hasMeta_concat, Bool.or_eq_false_iff] at hplain
      rw [← List.append_assoc, endsAnchored_concat, bne, getLast?_caret_append]
      by_cases hc : c = '$'
      · have hmeta : metaCharacters.contains '$' = true := by decide
        rw [hc, hmeta] at hplain
        by_cases hinit : init = [] <;> simp_all
      · simp [hc]

theorem wellEscaped_caret_append (starts : Bool) (cs : List Char) :
    WellEscaped reserved ((if starts then ['^'] else []) ++ cs) ↔ WellEscaped reserved cs := by
  cases starts with
  | true => exact wellEscaped_cons_iff (by decide)
  | false => rfl

theorem Spells.wellEscaped_anchored (h : Spells reserved body text) (starts ends : Bool) :
    WellEscaped reserved (anchored starts ends body) ↔
      WellEscaped reserved body ∧ (ends = true → body.getLast? ≠ some '\\') := by
  rw [anchored, List.append_assoc, wellEscaped_caret_append]
  cases ends with
  | true => simpa using h.wellEscaped_concat_dollar
  | false => simp

/-! ### How patterns are read -/

/-- The body of a pattern between the anchors that are taken for such. -/
def bodyOf (cs : List Char) : List Char :=
  let body := if cs.head? == some '^' then cs.tail else cs
  if endsAnchored cs then body.dropLast else body

theorem read?_eq (cs : List Char) : read? cs =
    if hasMeta false (bodyOf cs) then none
    else some (anchorOperator (cs.head? == some '^') (endsAnchored cs), unescape (bodyOf cs)) := by
  rw [read?, bodyOf]
  cases cs.head? == some '^' <;> cases endsAnchored cs <;> rfl

/-- Every pattern is made of such a body and such anchors. -/
theorem anchored_bodyOf (cs : List Char) :
    anchored (cs.head? == some '^') (endsAnchored cs) (bodyOf cs) = cs := by
  have hends {body : List Char} (h : body.getLast? = some '$') : body.dropLast ++ ['$'] = body :=
    List.dropLast_append_getLast? _ h
  have hlast (h : endsAnchored cs = true) : cs.getLast? = some '$' := by
    by_contra hnot
    rw [endsAnchored_of_getLast? hnot] at h
    cases h
  cases hstarts : cs.head? == some '^' with
  | false =>
    cases hanchored : endsAnchored cs with
    | false => simp [anchored, bodyOf, hstarts, hanchored]
    | true => simpa [anchored, bodyOf, hstarts, hanchored] using hends (hlast hanchored)
  | true =>
    obtain ⟨rest, rfl⟩ : ∃ rest, cs = '^' :: rest :=
      List.head?_eq_some_iff.mp (beq_iff_eq.mp hstarts)
    cases hanchored : endsAnchored ('^' :: rest) with
    | false => simp [anchored, bodyOf, hanchored]
    | true =>
      have hrest : rest.getLast? = some '$' := by
        have hwhole := hlast hanchored
        cases rest with
        | nil => simp at hwhole
        | cons c rest => rwa [List.getLast?_cons_cons] at hwhole
      simpa [anchored, bodyOf, hanchored] using hends hrest

/-- The body of a well escaped pattern is well escaped. -/
theorem WellEscaped.bodyOf {cs : List Char} (h : WellEscaped reserved cs) :
    WellEscaped reserved (bodyOf cs) := by
  have hcs := anchored_bodyOf cs
  rw [anchored, List.append_assoc] at hcs
  rw [← hcs, wellEscaped_caret_append] at h
  cases hends : endsAnchored cs with
  | false => simpa [hends] using h
  | true =>
    rw [hends, if_pos rfl] at h hcs
    refine h.of_concat_dollar rfl fun hlast => ?_
    rw [← hcs, ← List.append_assoc, endsAnchored_concat, bne, getLast?_caret_append, hlast] at hends
    cases hends

theorem Spells.head?_anchored (h : Spells reserved body text) (starts ends : Bool) :
    ((anchored starts ends body).head? == some '^') = starts := by
  cases starts with
  | true => rfl
  | false =>
    cases body with
    | nil => cases ends <;> rfl
    | cons c body =>
      have hmeta : '^' ∈ metaCharacters := by decide
      have hc : c ≠ '^' := fun hc => h.head?_notMem c rfl (hc ▸ hmeta)
      simp [anchored, hc]

/-- A pattern is literal in one way only. -/
theorem Spells.anchored_inj (h : Spells reserved body text) {body' text' : List Char}
    (h' : Spells reserved body' text') {starts ends starts' ends' : Bool}
    (heq : anchored starts ends body = anchored starts' ends' body') :
    starts = starts' ∧ ends = ends' ∧ body = body' := by
  have hdollar {body text whole : List Char} (h : Spells reserved body text)
      (hwhole : Spells reserved (body ++ ['$']) whole) : False := by
    obtain ⟨behind, hbehind, -⟩ := h.exists_append hwhole
    exact hbehind.head?_notMem '$' rfl (by decide)
  have hstarts : starts = starts' := by
    rw [← h.head?_anchored starts ends, heq, h'.head?_anchored]
  subst hstarts
  rw [anchored, anchored, List.append_assoc, List.append_assoc, List.append_cancel_left_eq] at heq
  refine ⟨rfl, ?_⟩
  cases ends <;> cases ends'
  case false.false => exact ⟨rfl, by simpa using heq⟩
  case false.true =>
    have hbody : body = body' ++ ['$'] := by simpa using heq
    exact (hdollar h' (hbody ▸ h)).elim
  case true.false =>
    have hbody : body' = body ++ ['$'] := by simpa using heq.symm
    exact (hdollar h (hbody ▸ h')).elim
  case true.true => exact ⟨rfl, by simpa using heq⟩

/-- An anchor behind an escaped backslash is taken for a part of the body. -/
theorem Spells.bodyOf_anchored (h : Spells reserved body text) (starts ends : Bool) :
    bodyOf (anchored starts ends body) =
      if ends && body.getLast? == some '\\' then body ++ ['$'] else body := by
  have hbody : (if starts then (anchored starts ends body).tail else anchored starts ends body) =
      body ++ (if ends then ['$'] else []) := by
    cases starts <;> rfl
  rw [bodyOf, h.head?_anchored, h.endsAnchored_anchored, hbody]
  cases ends with
  | false => simp
  | true => cases hlast : body.getLast? == some '\\' <;> simp [bne, hlast]

/-- A literal pattern is read as a rule, but an anchor behind an escaped backslash is lost. -/
theorem Spells.read?_anchored (h : Spells reserved body text) (starts ends : Bool) :
    read? (anchored starts ends body) =
      some (if ends && body.getLast? == some '\\' then
        (anchorOperator starts false, unescape (body ++ ['$']))
      else (anchorOperator starts ends, unescape body)) := by
  rw [read?_eq, h.head?_anchored, h.endsAnchored_anchored, h.bodyOf_anchored]
  cases hhidden : ends && body.getLast? == some '\\' with
  | true =>
    obtain ⟨hends, hlast⟩ := Bool.and_eq_true_iff.mp hhidden
    have hanchor : (ends && body.getLast? != some '\\') = false := by rw [bne, hlast, hends]; rfl
    have hplain : Pattern.hasMeta false (body ++ ['$']) = false := by
      rw [hasMeta_concat, h.hasMeta, hlast, if_neg (by rintro rfl; cases hlast)]
      rfl
    rw [hanchor, if_pos rfl, if_pos rfl, hplain, if_neg Bool.false_ne_true]
  | false =>
    have hanchor : (ends && body.getLast? != some '\\') = ends := by
      cases ends with
      | false => rfl
      | true => rw [bne, (Bool.true_and _).symm.trans hhidden]; rfl
    rw [hanchor, if_neg Bool.false_ne_true, if_neg Bool.false_ne_true, h.hasMeta,
      if_neg Bool.false_ne_true]

/-- A literal pattern is read as it is meant exactly if it is well escaped. -/
theorem Spells.read?_anchored_iff (h : Spells reserved body text) (starts ends : Bool) :
    read? (anchored starts ends body) = some (anchorOperator starts ends, text) ↔
      WellEscaped reserved (anchored starts ends body) := by
  rw [h.read?_anchored, h.wellEscaped_anchored, ← h.unescape_eq_iff]
  cases ends with
  | false => simp
  | true =>
    by_cases hlast : body.getLast? = some '\\'
    -- the anchor is lost, and with it the operator
    · have hoperator : anchorOperator starts false ≠ anchorOperator starts true := by
        cases starts <;> decide
      simp [hlast, hoperator]
    · simp [hlast]

/-- A pattern that has the answer that it should have is well escaped. -/
theorem wellEscaped_of_answers {dialect field : Value} {cs text : List Char} {operator : Operator}
    (hread : read? cs = some (operator, text))
    (h : Answers reserved dialect field cs (.ok {
      field := field
      operator := operator.toValue
      value := .text (String.ofList text) })) : WellEscaped reserved cs := by
  rcases h with ⟨starts, ends, body, text', rfl, h, hrule⟩ | ⟨-, herror⟩
  · obtain ⟨-, hoperator, htext, -⟩ := Rule.mk.inj (Except.ok.inj hrule)
    have htext : text = text' := String.ofList_injective (Value.text.inj htext)
    rw [← h.read?_anchored_iff, hread, Operator.toValue_injective hoperator, htext]
  · cases herror

/-- **Patterns.**  Whatever the reserved characters are, a pattern has the answer that it should
have exactly if it is refused or well escaped. -/
theorem rule_answers_iff (dialect field : Value) (pattern : String) :
    Answers reserved dialect field pattern.toList (rule dialect field (.text pattern)) ↔
      (∃ e, rule dialect field (.text pattern) = .error e) ∨
        WellEscaped reserved pattern.toList := by
  rw [rule]
  cases hread : read? pattern.toList with
  | none =>
    have hrefused : ¬IsLiteral reserved pattern.toList := by
      rintro ⟨starts, ends, body, text, hpattern, h⟩
      rw [hpattern, h.read?_anchored] at hread
      cases hread
    exact iff_of_true (.inr ⟨hrefused, rfl⟩) (.inl ⟨_, rfl⟩)
  | some entry =>
    obtain ⟨operator, text⟩ := entry
    refine ⟨fun h => .inr (wellEscaped_of_answers hread h), ?_⟩
    rintro (⟨e, herror⟩ | hescaped)
    · cases herror
    · rw [read?_eq] at hread
      split at hread
      · cases hread
      · rename_i hplain
        obtain ⟨rfl, rfl⟩ := Prod.mk.inj (Option.some.inj hread)
        exact .inl ⟨_, _, _, _, (anchored_bodyOf _).symm,
          hescaped.bodyOf.spells (Bool.eq_false_iff.mpr hplain), rfl⟩

/-- A class of characters and a wildcard behind an escaped backslash are read as texts. -/
theorem rule_answers_iff_regex :
    (rule (.text "mongodb") (.text "n") (.text "a\\d") =
        .ok (Rule.of "n" .contains (.text "ad")) ∧
      ¬Answers Char.isAlphanum (.text "mongodb") (.text "n") "a\\d".toList
        (.ok (Rule.of "n" .contains (.text "ad")))) ∧
    rule (.text "spel") (.text "n") (.text "a\\\\.") =
        .ok (Rule.of "n" .contains (.text "a\\.")) ∧
      ¬Answers Char.isAlphanum (.text "spel") (.text "n") "a\\\\.".toList
        (.ok (Rule.of "n" .contains (.text "a\\."))) := by
  refine ⟨⟨rfl, fun h => ?_⟩, rfl, fun h => ?_⟩
  · have hread : read? "a\\d".toList = some (.contains, ['a', 'd']) := rfl
    have hescaped := wellEscaped_of_answers hread h
    rw [show "a\\d".toList = ['a', '\\', 'd'] from rfl, wellEscaped_cons_iff (by decide),
      wellEscaped_escape_iff] at hescaped
    exact absurd hescaped.1.1 (by decide)
  · have hread : read? "a\\\\.".toList = some (.contains, ['a', '\\', '.']) := rfl
    have hescaped := wellEscaped_of_answers hread h
    rw [show "a\\\\.".toList = ['a', '\\', '\\', '.'] from rfl,
      wellEscaped_cons_iff (by decide), wellEscaped_escape_iff] at hescaped
    exact hescaped.1.2.2 rfl '.' rfl (by decide)

end

end Pattern
end RuleTree
