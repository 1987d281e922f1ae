/-!
Symbol tables: lists of values that are addressed by index.  Looking a value up finds its first
occurrence, and a value is appended only when it is absent, so an index once given out keeps its
meaning.  Indices are 32 bit words; entries that stand too far back share the largest one.
-/

namespace StackCode

/-- A symbol table, in index order. -/
structure Table (α : Type) where
  entries : List α
  deriving DecidableEq, Repr, Inhabited

namespace Table

variable {α : Type}

def empty : Table α := { entries := [] }

/-- The table of exactly these entries, repeated ones included. -/
def ofList (entries : List α) : Table α := { entries }

def size (table : Table α) : Nat := table.entries.length

def get? (table : Table α) (index : Nat) : Option α := table.entries[index]?

/-- The largest index. -/
def maxIndex : Nat := 0xffffffff

variable [DecidableEq α]

/-- The index of the first entry equal to `value`. -/
def indexOf? (table : Table α) (value : α) : Option Nat :=
  (table.entries.idxOf? value).map (min maxIndex)

def contains (table : Table α) (value : α) : Bool := table.entries.contains value

/-- The index of `value`, which is appended if it is absent. -/
def ensure (table : Table α) (value : α) : Nat × Table α :=
  match table.indexOf? value with
  | some index => (index, table)
  | none => (min maxIndex table.size, { entries := table.entries ++ [value] })

/-- The table of these values without repetitions. -/
def collect (values : List α) : Table α :=
  values.foldl (fun table value => (table.ensure value).2) empty

/-! Looking up and adding. -/

theorem indexOf?_le {table : Table α} {value : α} {index : Nat}
    (h : table.indexOf? value = some index) : index ≤ maxIndex := by
  obtain ⟨position, -, rfl⟩ := Option.map_eq_some_iff.mp h
  exact Nat.min_le_left _ _

theorem indexOf?_eq_none_iff {table : Table α} {value : α} :
    table.indexOf? value = none ↔ value ∉ table.entries := by
  rw [indexOf?, Option.map_eq_none_iff, List.idxOf?_eq_none_iff]

theorem contains_iff {table : Table α} {value : α} :
    table.contains value = true ↔ value ∈ table.entries := List.contains_iff_mem

/-- A value that is present leaves the table as it is, and any other one goes to the end. -/
theorem entries_ensure (table : Table α) (value : α) :
    (table.ensure value).2.entries =
      table.entries ++ if value ∈ table.entries then [] else [value] := by
  rw [ensure]
  split
  case h_1 index h =>
    have present : value ∈ table.entries := by
      refine Decidable.byContradiction fun absent => ?_
      rw [indexOf?_eq_none_iff.mpr absent] at h
      cases h
    rw [if_pos present, List.append_nil]
  case h_2 h => rw [if_neg (indexOf?_eq_none_iff.mp h)]

theorem mem_ensure (table : Table α) (value : α) : value ∈ (table.ensure value).2.entries := by
  rw [entries_ensure]
  split <;> simp_all

end Table
end StackCode
