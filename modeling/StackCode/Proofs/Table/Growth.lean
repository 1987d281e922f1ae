import Mathlib.Data.List.Induction
import StackCode.Proofs.Instruction.Argument

/-!
Tables that values are entered into.

Entering a value only ever adds an entry at the end.  So what stands at an index stays there, and the
first occurrence of a value stays the first one.
-/

namespace StackCode
namespace Table

/-! ## Growth -/

section Growth

variable {α : Type} {table middle later : Table α} {value : α}

/-- The entries of a table are at the same indices in a later one. -/
def Grows (table later : Table α) : Prop := table.entries <+: later.entries

theorem Grows.refl (table : Table α) : table.Grows table := List.prefix_refl table.entries

theorem Grows.trans (h : table.Grows middle) (h' : middle.Grows later) : table.Grows later :=
  List.IsPrefix.trans h h'

theorem Grows.size_le (h : table.Grows later) : table.size ≤ later.size :=
  List.IsPrefix.length_le h

theorem Grows.exists_added (h : table.Grows later) :
    ∃ added, later.entries = table.entries ++ added ∧ later.size = table.size + added.length := by
  obtain ⟨added, hadded⟩ := h
  exact ⟨added, hadded.symm, by rw [size, size, ← hadded, List.length_append]⟩

theorem Grows.get? (h : table.Grows later) {index : Nat} (hat : table.get? index = some value) :
    later.get? index = some value := by
  obtain ⟨hlt, hvalue⟩ := List.getElem?_eq_some_iff.mp hat
  have hlater : later.entries[index]? = some table.entries[index] :=
    List.prefix_iff_getElem?.mp h index hlt
  rw [Table.get?, hlater, hvalue]

variable [DecidableEq α]

/-- What was found first is still found first. -/
theorem Grows.indexOf? (h : table.Grows later) {index : Nat}
    (hfound : table.indexOf? value = some index) : later.indexOf? value = some index := by
  obtain ⟨position, hposition, rfl⟩ := Option.map_eq_some_iff.mp hfound
  have hlater : later.entries.idxOf? value = some position :=
    List.IsPrefix.findIdx?_eq_some h hposition
  rw [Table.indexOf?, hlater, Option.map_some]

theorem grows_ensure (table : Table α) (value : α) : table.Grows (table.ensure value).2 := by
  unfold Grows
  rw [entries_ensure]
  exact List.prefix_append _ _

/-- Enters values one after the other. -/
def ensureAll (table : Table α) (values : List α) : Table α :=
  values.foldl (fun table value => (table.ensure value).2) table

theorem grows_ensureAll (values : List α) :
    ∀ table : Table α, table.Grows (table.ensureAll values) := by
  induction values with
  | nil => exact fun table => Grows.refl table
  | cons value rest ih => exact fun table => (grows_ensure table value).trans (ih _)

end Growth

/-! ## First occurrences -/

variable {α : Type} [DecidableEq α] {table : Table α} {value : α}

theorem mem_of_indexOf? {index : Nat} (h : table.indexOf? value = some index) :
    value ∈ table.entries := by
  refine Decidable.byContradiction fun habsent => ?_
  rw [indexOf?_eq_none_iff.mpr habsent] at h
  cases h

/-- A value that is found is not entered again. -/
theorem ensure_of_indexOf? {index : Nat} (h : table.indexOf? value = some index) :
    table.ensure value = (index, table) := by
  rw [ensure, h]

theorem ensure_of_absent (h : table.indexOf? value = none) :
    table.ensure value =
      (min maxIndex table.size, { entries := table.entries ++ [value] }) := by
  rw [ensure, h]

/-- Behind the other entries, a value is found only if none of them is the same. -/
theorem indexOf?_concat (entries : List α) (last value : α) :
    (ofList (entries ++ [last])).indexOf? value =
      ((ofList entries).indexOf? value).or
        (if last = value then some (min maxIndex entries.length) else none) := by
  have hlast : List.findIdx? (fun entry => entry == value) [last] =
      if last = value then some 0 else none := by
    by_cases h : last = value <;> simp [h]
  unfold indexOf? ofList List.idxOf?
  rw [List.findIdx?_append, hlast]
  cases entries.findIdx? (fun entry => entry == value) with
  | some index => rfl
  | none => by_cases h : last = value <;> simp [h]

/-- A value is found exactly where it stands first. -/
theorem indexOf?_eq_some_iff (hsize : table.size < 0x100000000) {index : Nat} :
    table.indexOf? value = some index ↔
      table.get? index = some value ∧ ∀ earlier < index, table.get? earlier ≠ some value := by
  constructor
  · intro h
    obtain ⟨position, hposition, rfl⟩ := Option.map_eq_some_iff.mp h
    obtain ⟨hlt, hat, hbefore⟩ := List.idxOf?_eq_some_iff.mp hposition
    have hmin : min maxIndex position = position := by
      rw [size] at hsize
      rw [maxIndex]
      omega
    rw [hmin]
    refine ⟨List.getElem?_eq_some_iff.mpr ⟨hlt, hat⟩, fun earlier hearlier hsame => ?_⟩
    exact hbefore earlier hearlier (List.getElem?_eq_some_iff.mp hsame).2
  · rintro ⟨hat, hfirst⟩
    have hlt : index < table.size := (List.getElem?_eq_some_iff.mp hat).1
    refine indexOf?_of_first (by omega) hat fun earlier hearlier => ?_
    rw [hat]
    exact hfirst earlier hearlier

theorem contains_eq_isSome (table : Table α) (value : α) :
    table.contains value = (table.indexOf? value).isSome := by
  rw [Bool.eq_iff_iff, contains_iff, indexOf?, Option.isSome_map, List.isSome_idxOf?]

/-- Values are found where they stand first, and entering one gives the index where it is found. -/
structure FirstOccurrences (table : Table α) : Prop where
  indexOf?_iff : ∀ (value : α) (index : Nat), table.indexOf? value = some index ↔
    table.get? index = some value ∧ ∀ earlier < index, table.get? earlier ≠ some value
  contains_eq : ∀ value : α, table.contains value = (table.indexOf? value).isSome
  ensure_present : ∀ (value : α) (index : Nat), table.indexOf? value = some index →
    table.ensure value = (index, table)
  ensure_absent : ∀ value : α, table.indexOf? value = none →
    (table.ensure value).1 = table.size ∧
      (table.ensure value).2.entries = table.entries ++ [value] ∧
      (table.ensure value).2.indexOf? value = some table.size

/-- With fewer than 2 ^ 32 entries, a table is an index of first occurrences. -/
theorem firstOccurrences (hsize : table.size < 0x100000000) : table.FirstOccurrences where
  indexOf?_iff _ _ := indexOf?_eq_some_iff hsize
  contains_eq := contains_eq_isSome table
  ensure_present _ _ h := ensure_of_indexOf? h
  ensure_absent value h := by
    have hmin : min maxIndex table.size = table.size := by
      rw [maxIndex]
      omega
    rw [ensure_of_absent h, hmin]
    refine ⟨rfl, rfl, ?_⟩
    have hconcat := indexOf?_concat table.entries value value
    rw [if_pos rfl] at hconcat
    show (ofList (table.entries ++ [value])).indexOf? value = _
    rw [hconcat]
    show (table.indexOf? value).or (some (min maxIndex table.size)) = _
    rw [h, hmin, Option.none_or]

/-- Of values that are the same, the first one is collected. -/
theorem entries_collect (values : List α) : (collect values).entries = values.eraseDups := by
  induction values using List.reverseRecOn with
  | nil => rfl
  | append_singleton front last ih =>
    have hcollect : (collect (front ++ [last])).entries =
        ((collect front).ensure last).2.entries := by
      rw [collect, List.foldl_append]
      rfl
    rw [hcollect, entries_ensure, ih, List.eraseDups_append, List.cons_removeAll]
    by_cases h : last ∈ front
    · simp [h]
    · simp [h, List.eraseDups_cons]

end Table
end StackCode
