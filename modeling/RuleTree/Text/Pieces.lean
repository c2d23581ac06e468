/-! # Pieces of text

Trimming, replacing, splitting and joining, on character lists.  `trim` takes
away the blanks at both ends, as values, names and numbers are read; the blanks
are the ASCII ones with the separators, and the space separators of every script.
`replaceAll` replaces the occurrences of a pattern from left to right without
overlap, `splitCommas` cuts at the commas that no backslash precedes, and
`joinWith` puts a separator between texts.
-/
namespace RuleTree
namespace Text

/-! ### Blanks at the ends -/

/-- The characters that trimming removes. -/
def isBlank (c : Char) : Bool :=
  let n := c.toNat
  (9 ≤ n && n ≤ 13) || (28 ≤ n && n ≤ 32) || n == 0x85 || n == 0xA0 || n == 0x1680
    || (0x2000 ≤ n && n ≤ 0x200A) || n == 0x2028 || n == 0x2029 || n == 0x202F
    || n == 0x205F || n == 0x3000

/-- Without its leading blanks. -/
def trimStart (cs : List Char) : List Char := cs.dropWhile isBlank

/-- Without its trailing blanks. -/
def trimEnd (cs : List Char) : List Char := (cs.reverse.dropWhile isBlank).reverse

/-- Without its leading and trailing blanks. -/
def trimBoth (cs : List Char) : List Char := trimEnd (trimStart cs)

/-- A text without its leading and trailing blanks. -/
def trim (s : String) : String := String.ofList (trimBoth s.toList)

@[simp] theorem trimStart_nil : trimStart [] = [] := rfl

@[simp] theorem trimEnd_nil : trimEnd [] = [] := rfl

theorem length_dropWhile_le (p : Char → Bool) (cs : List Char) :
    (cs.dropWhile p).length ≤ cs.length := by
  induction cs with
  | nil => simp
  | cons c cs ih =>
    rw [List.dropWhile_cons]
    split
    · simp only [List.length_cons]
      omega
    · exact Nat.le_refl _

/-! ### Pieces -/

/-- Replaces the occurrences of a non-empty pattern; the first `skip`
characters belong to an occurrence that has been replaced. -/
def replaceFrom (pattern by' : List Char) : Nat → List Char → List Char
  | _, [] => []
  | skip + 1, _ :: cs => replaceFrom pattern by' skip cs
  | 0, c :: cs =>
    if pattern.isPrefixOf (c :: cs) then
      by' ++ replaceFrom pattern by' (pattern.length - 1) cs
    else
      c :: replaceFrom pattern by' 0 cs

/-- Replaces every occurrence of the pattern.  The empty pattern occurs before
every character and at the end. -/
def replaceAll (pattern by' : List Char) (cs : List Char) : List Char :=
  if pattern.isEmpty then by' ++ cs.flatMap (fun c => c :: by')
  else replaceFrom pattern by' 0 cs

/-- Replaces every occurrence of the pattern in a text. -/
def replace (s pattern by' : String) : String :=
  String.ofList (replaceAll pattern.toList by'.toList s.toList)

/-- Cuts at each comma whose previous character is not a backslash; `escaped`
says whether the character before the text is one. -/
def splitCommas (escaped : Bool) : List Char → List (List Char)
  | [] => [[]]
  | c :: cs =>
    let rest := splitCommas (c == '\\') cs
    if c == ',' && !escaped then [] :: rest
    else
      match rest with
      | [] => [[c]]
      | piece :: pieces => (c :: piece) :: pieces

theorem splitCommas_ne_nil (escaped : Bool) (cs : List Char) :
    splitCommas escaped cs ≠ [] := by
  cases cs with
  | nil => simp [splitCommas]
  | cons c cs =>
    simp only [splitCommas]
    split
    · simp
    · split <;> simp

/-- Cuts at every character of a class. -/
def cutAt (isMark : Char → Bool) : List Char → List (List Char)
  | [] => [[]]
  | c :: cs =>
    let rest := cutAt isMark cs
    if isMark c then [] :: rest
    else
      match rest with
      | [] => [[c]]
      | piece :: pieces => (c :: piece) :: pieces

/-- The texts in a row with the separator between them. -/
def joinWith (separator : String) : List String → String
  | [] => ""
  | [s] => s
  | s :: t :: rest => s ++ separator ++ joinWith separator (t :: rest)

@[simp] theorem joinWith_nil (separator : String) : joinWith separator [] = "" := rfl

@[simp] theorem joinWith_singleton (separator s : String) : joinWith separator [s] = s := rfl

theorem joinWith_cons_cons (separator s t : String) (rest : List String) :
    joinWith separator (s :: t :: rest) = s ++ separator ++ joinWith separator (t :: rest) := rfl

/-- The part before the last occurrence of a character and the part after it. -/
def splitLast (mark : Char) (cs : List Char) : Option (List Char × List Char) :=
  match cs.reverse.span (· != mark) with
  | (_, []) => none
  | (after, _ :: before) => some (before.reverse, after.reverse)

end Text
end RuleTree
