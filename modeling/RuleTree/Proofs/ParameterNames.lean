import RuleTree.Proofs.Drafts
import RuleTree.Proofs.Integers

/-! # Names of parameters

A parameter is named by its field and by how many parameters before it have had
the same stem.  The fields may have stems in common, and a stem may end like a
name; still no name comes twice (`Sql.nodup_slotNames`), because the part after
the last underscore of a name is its number.  So all parameters of a tree can be
bound in one map, in order.
-/
namespace RuleTree

/-! ### Along a list -/

/-- What a function makes of each item of a list, given the items before it. -/
def along {α β : Type} (f : List α → α → β) : List α → List α → List β
  | _, [] => []
  | before, x :: rest => f before x :: along f (before ++ [x]) rest

section
variable {α β γ : Type} (f : List α → α → β)

@[simp] theorem length_along (before xs : List α) : (along f before xs).length = xs.length := by
  induction xs generalizing before with
  | nil => rfl
  | cons x xs ih => simp [along, ih]

theorem along_append (before xs ys : List α) :
    along f before (xs ++ ys) = along f before xs ++ along f (before ++ xs) ys := by
  induction xs generalizing before with
  | nil => simp [along]
  | cons x xs ih => simp [along, ih]

theorem map_along (g : β → γ) (before xs : List α) :
    (along f before xs).map g = along (fun before x => g (f before x)) before xs := by
  induction xs generalizing before with
  | nil => rfl
  | cons x xs ih => simp [along, ih]

/-- What depends on the position alone is a function of the positions. -/
theorem along_position (g : Nat → β) (before xs : List α) :
    along (fun before _ => g before.length) before xs =
      (List.range xs.length).map fun i => g (before.length + i) := by
  induction xs generalizing before with
  | nil => rfl
  | cons x xs ih =>
    rw [along, ih, List.length_cons, List.range_succ_eq_map, List.map_cons, List.map_map]
    have hnext : ∀ i, (before ++ [x]).length + i = before.length + (i + 1) := fun i => by
      rw [List.length_append, List.length_singleton, Nat.add_assoc, Nat.add_comm 1]
    simp only [hnext]
    rfl

variable {f} in
theorem exists_of_mem_along {before xs : List α} {b : β} (h : b ∈ along f before xs) :
    ∃ between x, b = f (before ++ between) x := by
  induction xs generalizing before with
  | nil => cases h
  | cons x xs ih =>
    obtain rfl | h := List.mem_cons.mp h
    · exact ⟨[], x, by rw [List.append_nil]⟩
    · obtain ⟨between, y, rfl⟩ := ih h
      exact ⟨x :: between, y, by rw [List.append_assoc, List.singleton_append]⟩

variable {f} in
/-- No result comes twice if none comes again behind its item. -/
theorem nodup_along (h : ∀ before x between y, f before x ≠ f (before ++ x :: between) y)
    (before xs : List α) : (along f before xs).Nodup := by
  induction xs generalizing before with
  | nil => exact List.nodup_nil
  | cons x xs ih =>
    refine List.nodup_cons.mpr ⟨fun hmem => ?_, ih _⟩
    obtain ⟨between, y, hy⟩ := exists_of_mem_along hmem
    rw [List.append_assoc, List.singleton_append] at hy
    exact h before x between y hy

end

/-! ### Names -/

theorem Value.intText_natCast (n : Nat) : intText n = natText n := by
  rw [intText, if_neg (by omega), Int.natAbs_natCast]

theorem Value.natText_injective {m n : Nat} (h : natText m = natText n) : m = n := by
  have hvalue : ∀ k : Nat, Text.digitsValue (natText k).toList = k := fun k => by
    rw [natText, String.toList_ofList]
    exact digitsValue_intDigits k
  rw [← hvalue m, h, hvalue n]

/-- A stem and a number are told apart by the last underscore. -/
theorem NameSource.numbered_injective {s t : String} {m n : Nat}
    (h : s ++ "_" ++ Value.natText m = t ++ "_" ++ Value.natText n) : s = t ∧ m = n := by
  have hsplit : ∀ (u : String) (k : Nat),
      Text.splitLast '_' (u ++ "_" ++ Value.natText k).toList =
        some (u.toList, (Value.natText k).toList) := by
    intro u k
    have hdigits : '_' ∉ (Value.natText k).toList := fun hmem => by
      rw [Value.natText, String.toList_ofList] at hmem
      exact absurd (Value.isDigit_of_mem_intDigits (n := k) hmem) (by decide)
    rw [String.toList_append, String.toList_append, List.append_assoc]
    exact Text.splitLast_append_cons hdigits _
  have hparts := (hsplit s m).symm.trans ((congrArg _ (congrArg _ h)).trans (hsplit t n))
  obtain ⟨hs, hm⟩ := Prod.mk.inj (Option.some.inj hparts)
  exact ⟨String.toList_inj.mp hs, Value.natText_injective (String.toList_inj.mp hm)⟩

namespace NameSource
variable (source : NameSource)

theorem namesFor_append (asked first rest : List Value) :
    source.namesFor asked (first ++ rest) = (do
      let names ← source.namesFor asked first
      let more ← source.namesFor (first.reverse ++ asked) rest
      return names ++ more) := by
  induction first generalizing asked with
  | nil =>
    rw [List.nil_append, List.reverse_nil, List.nil_append, namesFor, Result.ok_bind]
    cases source.namesFor asked rest <;> rfl
  | cons field first ih =>
    rw [List.cons_append, namesFor, namesFor]
    cases source field asked with
    | error e => rfl
    | ok name =>
      rw [Result.ok_bind, Result.ok_bind, ih, List.reverse_cons, List.append_assoc,
        List.singleton_append]
      cases source.namesFor (field :: asked) first with
      | error e => rfl
      | ok names => cases source.namesFor (first.reverse ++ field :: asked) rest <;> rfl

variable {source} in
theorem length_of_namesFor {asked fields : List Value} {names : List String}
    (h : source.namesFor asked fields = .ok names) : names.length = fields.length := by
  induction fields generalizing asked names with
  | nil =>
    obtain rfl := Except.ok.inj h
    rfl
  | cons field fields ih =>
    obtain ⟨name, -, h⟩ := Result.bind_eq_ok h
    obtain ⟨more, hmore, h⟩ := Result.bind_eq_ok h
    obtain rfl := Except.ok.inj h
    rw [List.length_cons, List.length_cons, ih hmore]

end NameSource

namespace Sql
open NameSource

/-- The name of a parameter, given those before it. -/
def slotName (before : List Slot) (slot : Slot) : String :=
  stem slot.field ++ "_" ++
    Value.natText (before.countP (fun s => stem s.field == stem slot.field) + 1)

/-- A name does not come again: with the stem the number would have gone up. -/
theorem slotName_ne (before : List Slot) (x : Slot) (between : List Slot) (y : Slot) :
    slotName before x ≠ slotName (before ++ x :: between) y := by
  intro h
  obtain ⟨hstem, hcount⟩ := numbered_injective h
  rw [← hstem, List.countP_append, List.countP_cons_of_pos (by simp)] at hcount
  omega

/-- **Names are distinct.**  No two parameters have the same name. -/
theorem nodup_slotNames (before slots : List Slot) : (along slotName before slots).Nodup :=
  nodup_along slotName_ne before slots

/-- Fields with the same stem are numbered through. -/
example : along slotName [] [⟨"unit price", .int 1⟩, ⟨"unit_price", .int 2⟩, ⟨"unit", .int 3⟩] =
    ["unit_price_1", "unit_price_2", "unit_1"] := by
  rfl

/-- The fields that names were asked for, the last one first. -/
def askedFields (slots : List Slot) : List Value := (slots.map fun s => .text s.field).reverse

theorem perField_slot (before : List Slot) (slot : Slot) :
    perField (.text slot.field) (askedFields before) = .ok (slotName before slot) := by
  have hcount : ((askedFields before).filter fun f => stem? f == some (stem slot.field)).length =
      before.countP fun s => stem s.field == stem slot.field := by
    rw [askedFields, List.filter_reverse, List.length_reverse, ← List.countP_eq_length_filter,
      List.countP_map]
    rfl
  simp only [perField, stem?, slotName]
  rw [← hcount]
  rfl

/-- A row of parameters gets the names that each of them gets. -/
theorem namesFor_slots (before slots : List Slot) :
    perField.namesFor (askedFields before) (slots.map fun s => .text s.field) =
      .ok (along slotName before slots) := by
  induction slots generalizing before with
  | nil => rfl
  | cons slot slots ih =>
    have hasked : .text slot.field :: askedFields before = askedFields (before ++ [slot]) := by
      simp [askedFields]
    rw [List.map_cons, namesFor, perField_slot, hasked, ih]
    rfl

end Sql

/-! ### Maps in order -/

namespace Value

theorem lookup_eq_none_iff {key : String} {entries : List (String × Value)} :
    lookup key entries = none ↔ key ∉ entries.map Prod.fst := by
  induction entries with
  | nil => simp [lookup]
  | cons e entries ih =>
    rw [lookup, List.map_cons, List.mem_cons]
    split
    · rename_i h
      simp [h]
    · rename_i h
      rw [ih, not_or]
      exact (and_iff_right (Ne.symm h)).symm

/-- A new entry is the last one. -/
theorem insert_of_not_mem {key : String} (v : Value) {entries : List (String × Value)}
    (h : key ∉ entries.map Prod.fst) : insert key v entries = entries ++ [(key, v)] := by
  induction entries with
  | nil => rfl
  | cons e entries ih =>
    obtain ⟨hne, hrest⟩ := not_or.mp (mt List.mem_cons.mpr h)
    rw [insert, if_neg (Ne.symm hne), ih hrest, List.cons_append]

/-- Among distinct keys none is one of those before it. -/
theorem not_mem_of_nodup {bound entries : List (String × Value)} {e : String × Value}
    (h : ((bound ++ e :: entries).map Prod.fst).Nodup) : e.1 ∉ bound.map Prod.fst := by
  rw [List.map_append, List.nodup_append] at h
  exact fun hmem => h.2.2 _ hmem _ List.mem_cons_self rfl

/-- Entries under distinct keys are added in their order. -/
theorem foldl_insert {bound entries : List (String × Value)}
    (h : ((bound ++ entries).map Prod.fst).Nodup) :
    entries.foldl (fun m e => insert e.1 e.2 m) bound = bound ++ entries := by
  induction entries generalizing bound with
  | nil => simp
  | cons e entries ih =>
    rw [List.foldl_cons, insert_of_not_mem e.2 (not_mem_of_nodup h), ih (by simpa using h),
      List.append_assoc, List.singleton_append]

theorem keys_insert (key : String) (v : Value) (entries : List (String × Value)) :
    (insert key v entries).map Prod.fst =
      if key ∈ entries.map Prod.fst then entries.map Prod.fst
      else entries.map Prod.fst ++ [key] := by
  induction entries with
  | nil => rfl
  | cons e entries ih =>
    rw [insert]
    by_cases h : e.1 = key
    · simp [h]
    · have hne : key ≠ e.1 := Ne.symm h
      simp only [h, if_false, List.map_cons, ih, List.mem_cons, hne, false_or]
      split <;> rfl

theorem mem_keys_foldl_insert {name : String} (bound entries : List (String × Value)) :
    name ∈ (entries.foldl (fun m e => insert e.1 e.2 m) bound).map Prod.fst ↔
      name ∈ bound.map Prod.fst ∨ name ∈ entries.map Prod.fst := by
  induction entries generalizing bound with
  | nil => simp
  | cons e entries ih =>
    rw [List.foldl_cons, ih, keys_insert, List.map_cons, List.mem_cons]
    split
    · rename_i h
      constructor
      · exact fun hname => hname.imp_right .inr
      · rintro (hname | rfl | hname)
        · exact .inl hname
        · exact .inl h
        · exact .inr hname
    · rw [List.mem_append, List.mem_singleton, or_assoc]

/-- No key comes twice in a map. -/
theorem nodup_keys_foldl_insert {bound : List (String × Value)}
    (h : (bound.map Prod.fst).Nodup) (entries : List (String × Value)) :
    ((entries.foldl (fun m e => insert e.1 e.2 m) bound).map Prod.fst).Nodup := by
  induction entries generalizing bound with
  | nil => exact h
  | cons e entries ih =>
    refine ih ?_
    rw [keys_insert]
    split
    · exact h
    · rename_i hnew
      exact List.nodup_append.mpr ⟨h, List.pairwise_singleton _ _, fun _ hkey _ hname heq =>
        hnew (List.mem_singleton.mp hname ▸ heq ▸ hkey)⟩

end Value

/-- Parameters under distinct names are all bound, in their order. -/
theorem Sql.bindNamed_of_nodup {bound entries : List (String × Value)}
    (h : ((bound ++ entries).map Prod.fst).Nodup) :
    bindNamed bound entries = .ok (bound ++ entries) := by
  induction entries generalizing bound with
  | nil => simp [bindNamed]
  | cons e entries ih =>
    rw [bindNamed, Value.lookup_eq_none_iff.mpr (Value.not_mem_of_nodup h)]
    simp only
    rw [ih (by simpa using h), List.append_assoc, List.singleton_append]

/-- A name that is bound already is refused. -/
theorem Sql.bindNamed_of_not_nodup {bound entries : List (String × Value)}
    (hbound : (bound.map Prod.fst).Nodup) (h : ¬((bound ++ entries).map Prod.fst).Nodup) :
    ∃ name, bindNamed bound entries = .error (.invalidOption (.duplicateParameter name)) := by
  induction entries generalizing bound with
  | nil => exact absurd (by rwa [List.append_nil]) h
  | cons e entries ih =>
    rw [bindNamed]
    cases hlookup : Value.lookup e.1 bound with
    | some v => exact ⟨e.1, rfl⟩
    | none =>
      have hnew : e.1 ∉ bound.map Prod.fst := Value.lookup_eq_none_iff.mp hlookup
      refine ih (show ((bound ++ [(e.1, e.2)]).map Prod.fst).Nodup from ?_) (by simpa using h)
      have hne : ∀ key ∈ bound.map Prod.fst, key ≠ e.1 := fun _ hkey =>
        ne_of_mem_of_not_mem hkey hnew
      rw [List.map_append, List.nodup_append]
      exact ⟨hbound, by simp, by simpa using hne⟩

end RuleTree
