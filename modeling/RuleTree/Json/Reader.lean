import RuleTree.Value.DigitLimit

/-! # Reading JSON

`read` turns a JSON text into a value.  A number with a point or an exponent is
a floating point number and any other one an integer of any size; a repeated
name keeps its first place and takes the last value; `NaN`, `Infinity` and
`-Infinity` are accepted.  A fault comes with the offset where it was noticed; an
integer beyond the limit of digits ends the reading without one.
Every step of the reader leaves a shorter text, which is why it ends.  `document`
gives the value of a source that is a value already, or a JSON text.
-/
namespace RuleTree
namespace Json

/-- A fault, and the text that was left when it was noticed. -/
structure Stop where
  fault : JsonFault
  left : List Char

/-- A step of the reader on a text: what was read and the shorter text left. -/
abbrev Step (cs : List Char) (α : Type) := Except Stop (α × { r : List Char // r.length < cs.length })

/-- The blanks of JSON. -/
def isSpace (c : Char) : Bool := c == ' ' || c == '\t' || c == '\n' || c == '\r'

/-- Without the blanks in front. -/
def skipSpace (cs : List Char) : List Char := cs.dropWhile isSpace

theorem length_skipSpace_le (cs : List Char) : (skipSpace cs).length ≤ cs.length :=
  Text.length_dropWhile_le isSpace cs

/-! ### Texts -/

/-- The value of a hexadecimal digit. -/
def hexValue? (c : Char) : Option Nat :=
  if '0' ≤ c ∧ c ≤ '9' then some (c.toNat - 48)
  else if 'a' ≤ c ∧ c ≤ 'f' then some (c.toNat - 87)
  else if 'A' ≤ c ∧ c ≤ 'F' then some (c.toNat - 55)
  else none

/-- The number that hexadecimal digits write. -/
def hexNumber? (cs : List Char) : Option Nat :=
  cs.foldlM (fun n c => (hexValue? c).map (16 * n + ·)) 0

/-- The character of a code unit; a unit that is none has the replacement. -/
def unitChar (n : Nat) : Char := if 0xD800 ≤ n ∧ n < 0xE000 then '\ufffd' else Char.ofNat n

/-- The character that a one-letter escape stands for. -/
def escaped? : Char → Option Char
  | '"' => some '"'
  | '\\' => some '\\'
  | '/' => some '/'
  | 'b' => some '\x08'
  | 'f' => some '\x0c'
  | 'n' => some '\n'
  | 'r' => some '\r'
  | 't' => some '\t'
  | _ => none

/-- The four hexadecimal digits at the start of a text that goes on after them. -/
def readUnit? : List Char → Option (Nat × List Char)
  | a :: b :: c :: d :: next :: rest =>
    (hexNumber? [a, b, c, d]).map fun n => (n, next :: rest)
  | _ => none

/-- The second half of a surrogate pair at the start of a text: none if there is
no such half, a fault if there is a malformed escape. -/
def readLowHalf (cs : List Char) : Except Stop (Option (Nat × List Char)) :=
  match cs with
  | '\\' :: 'u' :: rest =>
    if rest.length < 5 then .ok none
    else
      match readUnit? rest with
      | none => .error ⟨.invalidUnicodeEscape, 'u' :: rest⟩
      | some (n, after) =>
        if 0xDC00 ≤ n ∧ n < 0xE000 then .ok (some (n, after)) else .ok none
  | _ => .ok none

/-- The character of an escape by code unit, at the text after its `u`. -/
def readUnicode (cs : List Char) : Except Stop (Char × List Char) :=
  match readUnit? cs with
  | none => .error ⟨.invalidUnicodeEscape, 'u' :: cs⟩
  | some (n, rest) =>
    if 0xD800 ≤ n ∧ n < 0xDC00 then do
      match ← readLowHalf rest with
      | some (m, after) => return (Char.ofNat (0x10000 + (n - 0xD800) * 1024 + (m - 0xDC00)), after)
      | none => return (unitChar n, rest)
    else .ok (unitChar n, rest)

theorem length_of_readUnit? {cs rest : List Char} {n : Nat}
    (h : readUnit? cs = some (n, rest)) : rest.length < cs.length := by
  unfold readUnit? at h
  split at h
  · simp only [Option.map_eq_some_iff, Prod.mk.injEq] at h
    obtain ⟨_, _, _, rfl⟩ := h
    simp
  · simp at h

theorem length_of_readLowHalf {cs rest : List Char} {n : Nat}
    (h : readLowHalf cs = .ok (some (n, rest))) : rest.length < cs.length := by
  unfold readLowHalf at h
  split at h
  · split at h
    · simp at h
    · split at h
      · simp at h
      · rename_i hu
        have := length_of_readUnit? hu
        split at h
        · simp only [Except.ok.injEq, Option.some.injEq, Prod.mk.injEq] at h
          rw [← h.2]
          simp only [List.length_cons]
          omega
        · simp at h
  · simp at h

theorem length_of_readUnicode {cs rest : List Char} {c : Char}
    (h : readUnicode cs = .ok (c, rest)) : rest.length < cs.length := by
  unfold readUnicode at h
  split at h
  · simp at h
  · rename_i n mid hm
    have h1 := length_of_readUnit? hm
    split at h
    · cases hl : readLowHalf mid with
      | error e => simp [hl, bind, Except.bind] at h
      | ok half =>
        cases half with
        | none =>
          simp only [hl, bind, Except.bind, pure, Except.pure, Except.ok.injEq,
            Prod.mk.injEq] at h
          rw [← h.2]
          exact h1
        | some half =>
          have h2 := length_of_readLowHalf hl
          simp only [hl, bind, Except.bind, pure, Except.pure, Except.ok.injEq,
            Prod.mk.injEq] at h
          rw [← h.2]
          omega
    · simp only [Except.ok.injEq, Prod.mk.injEq] at h
      rw [← h.2]
      exact h1

/-- The characters up to the closing quote.  An unterminated text is noticed at
its opening quote, where `opening` is the text left. -/
def readText (opening : List Char) (cs : List Char) : Step cs (List Char) :=
  match cs with
  | [] => .error ⟨.unterminatedText, opening⟩
  | '"' :: rest => .ok ([], ⟨rest, by simp⟩)
  | ['\\'] => .error ⟨.unterminatedText, opening⟩
  | '\\' :: 'u' :: rest =>
    match h : readUnicode rest with
    | .error stop => .error stop
    | .ok (c, after) =>
      have hl := length_of_readUnicode h
      match readText opening after with
      | .error stop => .error stop
      | .ok (chars, ⟨left, hr⟩) =>
        .ok (c :: chars, ⟨left, by simp only [List.length_cons]; omega⟩)
  | '\\' :: e :: rest =>
    match escaped? e with
    | none => .error ⟨.invalidEscape, '\\' :: e :: rest⟩
    | some c =>
      match readText opening rest with
      | .error stop => .error stop
      | .ok (chars, ⟨left, hr⟩) =>
        .ok (c :: chars, ⟨left, by simp only [List.length_cons]; omega⟩)
  | c :: rest =>
    if c.toNat < 32 then .error ⟨.controlCharacter, c :: rest⟩
    else
      match readText opening rest with
      | .error stop => .error stop
      | .ok (chars, ⟨left, hr⟩) =>
        .ok (c :: chars, ⟨left, by simp only [List.length_cons]; omega⟩)
termination_by cs.length

/-! ### Numbers -/

/-- An ASCII digit. -/
def isDigit (c : Char) : Bool := '0' ≤ c && c ≤ '9'

/-- A point with digits after it; nothing if there are none. -/
def takeFraction : List Char → List Char
  | '.' :: rest =>
    if (rest.takeWhile isDigit).isEmpty then [] else '.' :: rest.takeWhile isDigit
  | _ => []

/-- An exponent mark with its sign and digits; nothing if there are no digits. -/
def takeExponent : List Char → List Char
  | c :: rest =>
    if c == 'e' || c == 'E' then
      let sign := match rest with
        | '+' :: _ => ['+']
        | '-' :: _ => ['-']
        | _ => []
      let digits := (rest.drop sign.length).takeWhile isDigit
      if digits.isEmpty then [] else c :: sign ++ digits
    else []
  | [] => []

/-- The digits before the point: a single zero, or digits that start with none. -/
def takeWhole : List Char → List Char
  | '0' :: _ => ['0']
  | cs => cs.takeWhile isDigit

/-- The characters of the number at the start of a text; none if there is no
number. -/
def takeNumber (cs : List Char) : List Char :=
  let sign := match cs with
    | '-' :: _ => ['-']
    | _ => []
  let whole := takeWhole (cs.drop sign.length)
  if whole.isEmpty then []
  else
    let rest := cs.drop (sign.length + whole.length)
    let fraction := takeFraction rest
    sign ++ whole ++ fraction ++ takeExponent (rest.drop fraction.length)

/-- The number of a row of characters taken by `takeNumber`. -/
def numberValue (chars : List Char) : Value :=
  match Numeral.read? chars with
  | some (x, _) => .ofNumber x.value
  | none => .null

/-- Whether the number of such a row has no more digits than are read at once. -/
def isWithin (limit : DigitLimit) (chars : List Char) : Bool :=
  match limit with
  | none => true
  | some digits => (Numeral.read? chars).all fun e => e.1.isShort digits

@[simp] theorem isWithin_none (chars : List Char) : isWithin none chars = true := rfl

/-- The words that are values. -/
def words : List (List Char × Value) :=
  [("null".toList, .null), ("true".toList, .bool true), ("false".toList, .bool false),
    ("NaN".toList, .float .nan), ("Infinity".toList, .float (.infinite false)),
    ("-Infinity".toList, .float (.infinite true))]

/-- A word or a number. -/
def readScalar (cs : List Char) (limit : DigitLimit := none) : Step cs Value :=
  match words.find? fun w => w.1.isPrefixOf cs && !w.1.isEmpty with
  | some (word, v) =>
    if h : (cs.drop word.length).length < cs.length then .ok (v, ⟨cs.drop word.length, h⟩)
    else .error ⟨.expectingValue, cs⟩
  | none =>
    let chars := takeNumber cs
    if h : (cs.drop chars.length).length < cs.length then
      if isWithin limit chars then .ok (numberValue chars, ⟨cs.drop chars.length, h⟩)
      else .error ⟨.tooManyDigits, cs⟩
    else .error ⟨.expectingValue, cs⟩

/-! ### Values -/

mutual
/-- The value at the start of a text. -/
def readValue (cs : List Char) (limit : DigitLimit := none) : Step cs Value :=
  match cs with
  | '"' :: rest =>
    match readText ('"' :: rest) rest with
    | .error stop => .error stop
    | .ok (chars, ⟨left, h⟩) =>
      .ok (.text (String.ofList chars), ⟨left, by simp only [List.length_cons]; omega⟩)
  | '[' :: rest =>
    have hs := length_skipSpace_le rest
    match hm : skipSpace rest with
    | ']' :: left =>
      .ok (.list [], ⟨left, by rw [hm] at hs; simp only [List.length_cons] at hs ⊢; omega⟩)
    | _ =>
      match readItems (skipSpace rest) limit with
      | .error stop => .error stop
      | .ok (items, ⟨left, h⟩) =>
        .ok (.list items, ⟨left, by simp only [List.length_cons]; omega⟩)
  | '{' :: rest =>
    have hs := length_skipSpace_le rest
    match hm : skipSpace rest with
    | '}' :: left =>
      .ok (.map [], ⟨left, by rw [hm] at hs; simp only [List.length_cons] at hs ⊢; omega⟩)
    | _ =>
      match readEntries [] (skipSpace rest) limit with
      | .error stop => .error stop
      | .ok (entries, ⟨left, h⟩) =>
        .ok (.map entries, ⟨left, by simp only [List.length_cons]; omega⟩)
  | cs => readScalar cs limit
termination_by (cs.length, 0)
decreasing_by
  all_goals
    simp only [List.length_cons]
    apply Prod.Lex.left
    omega

/-- The items of a list up to its closing bracket. -/
def readItems (cs : List Char) (limit : DigitLimit := none) : Step cs (List Value) :=
  match readValue cs limit with
  | .error stop => .error stop
  | .ok (v, ⟨after, hv⟩) =>
    have hs := length_skipSpace_le after
    match hm : skipSpace after with
    | ']' :: left =>
      .ok ([v], ⟨left, by rw [hm] at hs; simp only [List.length_cons] at hs; omega⟩)
    | ',' :: rest =>
      have hr := length_skipSpace_le rest
      have hl : rest.length < cs.length := by
        rw [hm] at hs; simp only [List.length_cons] at hs; omega
      match readItems (skipSpace rest) limit with
      | .error stop => .error stop
      | .ok (items, ⟨left, h⟩) => .ok (v :: items, ⟨left, by omega⟩)
    | other => .error ⟨.expectingComma, other⟩
termination_by (cs.length, 1)
decreasing_by
  · apply Prod.Lex.right; omega
  · apply Prod.Lex.left; omega

/-- The entries of a map up to its closing brace, after those already read. -/
def readEntries (before : List (String × Value)) (cs : List Char) (limit : DigitLimit := none) :
    Step cs (List (String × Value)) :=
  match cs with
  | '"' :: rest =>
    match readText ('"' :: rest) rest with
    | .error stop => .error stop
    | .ok (name, ⟨afterName, hn⟩) =>
      have hc := length_skipSpace_le afterName
      match hcm : skipSpace afterName with
      | ':' :: colonRest =>
        have hb := length_skipSpace_le colonRest
        have hlt : colonRest.length < rest.length := by
          rw [hcm] at hc; simp only [List.length_cons] at hc; omega
        match readValue (skipSpace colonRest) limit with
        | .error stop => .error stop
        | .ok (v, ⟨after, hv⟩) =>
          let entries := Value.insert (String.ofList name) v before
          have hs := length_skipSpace_le after
          match hm : skipSpace after with
          | '}' :: left =>
            .ok (entries, ⟨left, by
              rw [hm] at hs; simp only [List.length_cons] at hs ⊢; omega⟩)
          | ',' :: more =>
            have hr := length_skipSpace_le more
            have hl : more.length < rest.length := by
              rw [hm] at hs; simp only [List.length_cons] at hs; omega
            match readEntries entries (skipSpace more) limit with
            | .error stop => .error stop
            | .ok (entries, ⟨left, h⟩) =>
              .ok (entries, ⟨left, by simp only [List.length_cons]; omega⟩)
          | other => .error ⟨.expectingComma, other⟩
      | other => .error ⟨.expectingColon, other⟩
  | other => .error ⟨.expectingName, other⟩
termination_by (cs.length, 0)
decreasing_by
  · simp only [List.length_cons]; apply Prod.Lex.left; omega
  · simp only [List.length_cons]; apply Prod.Lex.left; omega
end

/-- A whole text: one value with blanks around it. -/
def readWhole (cs : List Char) (limit : DigitLimit := none) : Except Stop Value :=
  match cs with
  | '\ufeff' :: _ => .error ⟨.byteOrderMark, cs⟩
  | _ =>
    match readValue (skipSpace cs) limit with
    | .error stop => .error stop
    | .ok (v, ⟨rest, _⟩) =>
      match skipSpace rest with
      | [] => .ok v
      | left => .error ⟨.extraData, left⟩

/-- The value of a JSON text, or a fault and its offset. -/
def read (cs : List Char) (limit : DigitLimit := none) : Except (JsonFault × Nat) Value :=
  (readWhole cs limit).mapError fun stop => (stop.fault, cs.length - stop.left.length)

/-- The error of a fault in a text.  That an integer is beyond the limit is no fault
of the text. -/
def faultError (format : String) (limit : DigitLimit) (fault : JsonFault) (place : Place) :
    Error :=
  match limit, fault with
  | some _, .tooManyDigits => .misuse .tooManyDigits
  | _, fault => .parse (.invalidJson format fault) place

/-- The value of a source: what a text writes in JSON, any other value itself.
The format is named in the fault. -/
def document (format : String) (source : Value) (limit : DigitLimit := none) : Result Value :=
  match source with
  | .text s =>
    match read s.toList limit with
    | .ok v => .ok v
    | .error (fault, offset) =>
      .error (faultError format limit fault (Place.behind (s.toList.take offset)))
  | v => .ok v

end Json
end RuleTree
