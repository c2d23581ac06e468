import RuleTree.Number.Numeral

/-! # Values

What a rule compares a field with, and every other piece of data that a caller
hands over: null, truth values, numbers, texts, lists, and maps in insertion
order.  An integer, a floating point number and a truth value are three
different values; `Value.equals` is the looser equality that counts them as
numbers.
-/
namespace RuleTree

/-- A piece of data. -/
inductive Value where
  | null
  | bool (b : Bool)
  | int (n : Int)
  | float (x : Binary64)
  | text (s : String)
  | list (items : List Value)
  | map (entries : List (String × Value))
  deriving Inhabited

/-- Where a node stands in a tree: the positions to follow from the root. -/
abbrev Path := List Nat

namespace Value

/-- A number as a value. -/
def ofNumber : Number → Value
  | .int n => .int n
  | .float x => .float x

/-- The truth of a value: null, zero and everything empty are false. -/
def truthy : Value → Bool
  | .null => false
  | .bool b => b
  | .int n => n != 0
  | .float (.finite _ 0 _) => false
  | .float _ => true
  | .text s => s != ""
  | .list items => !items.isEmpty
  | .map entries => !entries.isEmpty

/-- Null or the empty text. -/
def isBlankValue : Value → Bool
  | .null => true
  | .text s => s == ""
  | _ => false

/-- A number proper; truth values are not. -/
def isNumber : Value → Bool
  | .int _ => true
  | .float _ => true
  | _ => false

/-- The text of a text value. -/
def asText? : Value → Option String
  | .text s => some s
  | _ => none

/-- The entry of a key. -/
def lookup (key : String) : List (String × Value) → Option Value
  | [] => none
  | (k, v) :: rest => if k = key then some v else lookup key rest

theorem mem_of_lookup {key : String} {v : Value} {entries : List (String × Value)}
    (h : lookup key entries = some v) : (key, v) ∈ entries := by
  induction entries with
  | nil => cases h
  | cons e entries ih =>
    obtain ⟨k, w⟩ := e
    rw [lookup] at h
    split at h
    case isTrue hkey =>
      obtain rfl := Option.some.inj h
      rw [hkey]
      exact List.mem_cons_self
    case isFalse => exact List.mem_cons_of_mem _ (ih h)

/-- Sets an entry: a key keeps its first place and takes the last value. -/
def insert (key : String) (v : Value) : List (String × Value) → List (String × Value)
  | [] => [(key, v)]
  | (k, w) :: rest => if k = key then (k, v) :: rest else (k, w) :: insert key v rest

/-- The first entry that is present under one of the keys. -/
def firstOf (entries : List (String × Value)) (keys : List String) (absent : Value) : Value :=
  (keys.findSome? fun key => lookup key entries).getD absent

/-- The entry of a key of a map; other values have no entries. -/
def get? (key : String) : Value → Option Value
  | .map entries => lookup key entries
  | _ => none

/-- Whether entries have a key. -/
def hasKey (key : String) (entries : List (String × Value)) : Bool := (lookup key entries).isSome

/-- The name of the kind of a value, as messages give it. -/
def kindName : Value → String
  | .null => "NoneType"
  | .bool _ => "bool"
  | .int _ => "int"
  | .float _ => "float"
  | .text _ => "str"
  | .list _ => "list"
  | .map _ => "dict"

/-! ### Equality of values -/

/-- The integer that a value counts as: truth values are one and zero. -/
def asInt? : Value → Option Int
  | .bool b => some (if b then 1 else 0)
  | .int n => some n
  | _ => none

/-- Equality of two values that are neither lists nor maps. -/
def scalarEquals : Value → Value → Bool
  | .null, .null => true
  | .text s, .text t => s == t
  | .float x, .float y => x.equals y
  | .float x, v => match v.asInt? with
    | some n => x.equalsInt n
    | none => false
  | v, .float x => match v.asInt? with
    | some n => x.equalsInt n
    | none => false
  | v, w => match v.asInt?, w.asInt? with
    | some n, some m => n == m
    | _, _ => false

mutual
/-- Equality of values: numbers by value whatever their kind, lists item by
item, maps by their entries in any order. -/
def equals : Value → Value → Bool
  | .list xs, w => match w with
    | .list ys => listEquals xs ys
    | _ => false
  | .map xs, w => match w with
    | .map ys => xs.length == ys.length && entriesWithin xs ys
    | _ => false
  | v, w => scalarEquals v w

/-- Item by item equality. -/
def listEquals : List Value → List Value → Bool
  | [], [] => true
  | x :: xs, y :: ys => equals x y && listEquals xs ys
  | _, _ => false

/-- Every entry has an equal one under the same key. -/
def entriesWithin : List (String × Value) → List (String × Value) → Bool
  | [], _ => true
  | (k, v) :: rest, ys => (match lookup k ys with
    | some w => equals v w
    | none => false) && entriesWithin rest ys
end

@[simp] theorem lookup_nil (key : String) : lookup key [] = none := rfl

end Value
end RuleTree
