import StackCode.Proofs.Table.Growth

/-!
Tables that are kept with a map from values to indices.

With the map a value is found without walking the entries.  Each constructor fills the map in its own
way, and of entries that are the same only the first one goes into it.  The two stay in step, so such a
table gives the answers that `Table` takes from its entries alone.
-/

namespace StackCode

/-- Entries in index order, and beside them the index of each value. -/
structure IndexedTable (α : Type) [DecidableEq α] [Hashable α] where
  entries : List α
  index : Std.HashMap α Nat

namespace IndexedTable

variable {α : Type} [DecidableEq α] [Hashable α]

def empty : IndexedTable α := { entries := [], index := ∅ }

/-- Maps each of `entries`, the first of which is at `start`, unless a value is mapped already. -/
def mapFrom (index : Std.HashMap α Nat) (entries : List α) (start : Nat) : Std.HashMap α Nat :=
  (entries.zipIdx start).foldl
    (fun index entry => index.insertIfNew entry.1 (min Table.maxIndex entry.2)) index

/-- The table of exactly these entries, repeated ones included. -/
def ofList (entries : List α) : IndexedTable α := { entries, index := mapFrom ∅ entries 0 }

def get? (table : IndexedTable α) (index : Nat) : Option α := table.entries[index]?

def indexOf? (table : IndexedTable α) (value : α) : Option Nat := table.index[value]?

def contains (table : IndexedTable α) (value : α) : Bool := table.index.contains value

/-- The index of `value`, which is appended and mapped if it has none. -/
def ensure (table : IndexedTable α) (value : α) : Nat × IndexedTable α :=
  match table.index[value]? with
  | some index => (index, table)
  | none =>
    let index := min Table.maxIndex table.entries.length
    (index, { entries := table.entries ++ [value], index := table.index.insert value index })

/-- Enters values one after the other. -/
def ensureAll (table : IndexedTable α) (values : List α) : IndexedTable α :=
  values.foldl (fun table value => (table.ensure value).2) table

/-- The table of these values without repetitions. -/
def collect (values : List α) : IndexedTable α := empty.ensureAll values

/-- Both tables came to be in the same way. -/
inductive Backs : IndexedTable α → Table α → Prop where
  | empty : Backs .empty .empty
  | ofList (entries : List α) : Backs (.ofList entries) (.ofList entries)
  | collect (values : List α) : Backs (.collect values) (.collect values)
  | ensure {kept : IndexedTable α} {table : Table α} (h : Backs kept table) (value : α) :
    Backs (kept.ensure value).2 (table.ensure value).2

/-! ## Entries and map in step -/

/-- The entries are those of `table`, and the map has the first occurrence of each value. -/
structure InStep (kept : IndexedTable α) (table : Table α) : Prop where
  entries : kept.entries = table.entries
  index : ∀ value : α, kept.index[value]? = table.indexOf? value

variable {kept : IndexedTable α} {table : Table α}

theorem inStep_empty : InStep (empty : IndexedTable α) .empty where
  entries := rfl
  index _ := Std.HashMap.getElem?_empty

/-- Entries that are mapped one after the other are mapped to their first occurrences. -/
theorem getElem?_mapFrom (rest : List α) : ∀ (front : List α) (index : Std.HashMap α Nat),
    (∀ value : α, index[value]? = (Table.ofList front).indexOf? value) → ∀ value : α,
      (mapFrom index rest front.length)[value]? = (Table.ofList (front ++ rest)).indexOf? value := by
  induction rest with
  | nil =>
    intro front index h value
    rw [List.append_nil]
    exact h value
  | cons entry rest ih =>
    intro front index h value
    have hstep : ∀ value : α, (index.insertIfNew entry (min Table.maxIndex front.length))[value]? =
        (Table.ofList (front ++ [entry])).indexOf? value := by
      intro value
      rw [Std.HashMap.getElem?_insertIfNew, Table.indexOf?_concat, ← h value]
      by_cases hentry : entry = value
      · rw [hentry]
        by_cases hmem : value ∈ index
        · simp [hmem]
        · simp [hmem]
      · simp [hentry]
    have hrest := ih (front ++ [entry]) _ hstep value
    rw [List.append_assoc, List.length_append] at hrest
    exact hrest

theorem inStep_ofList (entries : List α) : InStep (ofList entries) (.ofList entries) where
  entries := rfl
  index := getElem?_mapFrom entries [] ∅ fun _ => Std.HashMap.getElem?_empty

/-- Entering a value gives the same index in both and leaves them in step. -/
theorem InStep.ensure (h : kept.InStep table) (value : α) :
    (kept.ensure value).1 = (table.ensure value).1 ∧
      InStep (kept.ensure value).2 (table.ensure value).2 := by
  unfold IndexedTable.ensure
  rw [h.index value]
  cases hfound : table.indexOf? value with
  | some index =>
    rw [Table.ensure_of_indexOf? hfound]
    exact ⟨rfl, h⟩
  | none =>
    rw [Table.ensure_of_absent hfound, h.entries]
    refine ⟨rfl, rfl, fun other => ?_⟩
    have hconcat := Table.indexOf?_concat table.entries value other
    show (kept.index.insert value _)[other]? =
      (Table.ofList (table.entries ++ [value])).indexOf? other
    rw [hconcat, Std.HashMap.getElem?_insert, h.index other]
    show _ = (table.indexOf? other).or _
    by_cases hother : value = other
    · rw [← hother, hfound]
      simp
    · simp [hother]

theorem InStep.ensureAll (values : List α) : ∀ {kept : IndexedTable α} {table : Table α},
    kept.InStep table → InStep (kept.ensureAll values) (table.ensureAll values) := by
  induction values with
  | nil => exact fun h => h
  | cons value rest ih => exact fun h => ih (h.ensure value).2

theorem Backs.inStep (h : kept.Backs table) : kept.InStep table := by
  induction h with
  | empty => exact inStep_empty
  | ofList entries => exact inStep_ofList entries
  | collect values => exact inStep_empty.ensureAll values
  | ensure _ value ih => exact (ih.ensure value).2

/-! ## Answers -/

/-- Both tables give the same answers, and `kept` stays as it is where `table` does. -/
structure AnswersAs (kept : IndexedTable α) (table : Table α) : Prop where
  get? : ∀ index : Nat, kept.get? index = table.get? index
  indexOf? : ∀ value : α, kept.indexOf? value = table.indexOf? value
  contains : ∀ value : α, kept.contains value = table.contains value
  ensure : ∀ value : α, (kept.ensure value).1 = (table.ensure value).1 ∧
    (kept.ensure value).2.entries = (table.ensure value).2.entries
  ensure_present : ∀ (value : α) (index : Nat), table.indexOf? value = some index →
    kept.ensure value = (index, kept)

theorem InStep.answersAs (h : kept.InStep table) : kept.AnswersAs table where
  get? index := by rw [IndexedTable.get?, h.entries, Table.get?]
  indexOf? := h.index
  contains value := by
    rw [IndexedTable.contains, Std.HashMap.contains_eq_isSome_getElem?, h.index,
      Table.contains_eq_isSome]
  ensure value := ⟨(h.ensure value).1, (h.ensure value).2.entries⟩
  ensure_present value index hfound := by rw [IndexedTable.ensure, h.index value, hfound]

/-- What is in a table when further values are entered is where it was, and is found there. -/
theorem InStep.keeps_ensureAll (h : kept.InStep table) (values : List α) :
    (∀ index value, kept.get? index = some value →
        (kept.ensureAll values).get? index = some value) ∧
      ∀ value index, kept.indexOf? value = some index →
        (kept.ensureAll values).indexOf? value = some index := by
  have hgrows := Table.grows_ensureAll values table
  have hanswers := h.answersAs
  have hlater := (h.ensureAll values).answersAs
  refine ⟨fun index value hat => ?_, fun value index hfound => ?_⟩
  · rw [hanswers.get?] at hat
    rw [hlater.get?]
    exact hgrows.get? hat
  · rw [hanswers.indexOf?] at hfound
    rw [hlater.indexOf?]
    exact hgrows.indexOf? hfound

theorem entries_collect (values : List α) : (collect values).entries = values.eraseDups :=
  (inStep_empty.ensureAll values).entries.trans (Table.entries_collect values)

/-- However a table came to be, the map that is kept beside its entries gives the answers that the
entries give, and these are an index of first occurrences.  When further values are entered nothing is
moved.  What repeats an earlier value is left out where values are collected, and is kept where the
entries are given. -/
theorem Backs.stable (h : kept.Backs table) (hsize : table.size < 0x100000000) :
    kept.AnswersAs table ∧ table.FirstOccurrences ∧
      (∀ values : List α, (∀ index value, kept.get? index = some value →
          (kept.ensureAll values).get? index = some value) ∧
        ∀ value index, kept.indexOf? value = some index →
          (kept.ensureAll values).indexOf? value = some index) ∧
      ∀ values : List α, (IndexedTable.collect values).entries = values.eraseDups ∧
        (IndexedTable.ofList values).entries = values :=
  ⟨h.inStep.answersAs, Table.firstOccurrences hsize, h.inStep.keeps_ensureAll,
    fun values => ⟨entries_collect values, rfl⟩⟩

/-- A name that is repeated, and one that was entered later. -/
theorem repeated_stable :
    ((ofList ["a", "b", "a"]).ensure "c").2.Backs ((Table.ofList ["a", "b", "a"]).ensure "c").2 ∧
      ((Table.ofList ["a", "b", "a"]).ensure "c").2.size < 0x100000000 ∧
      ((ofList ["a", "b", "a"]).ensure "c").2.indexOf? "a" = some 0 ∧
      ((ofList ["a", "b", "a"]).ensure "c").2.get? 2 = some "a" ∧
      (((ofList ["a", "b", "a"]).ensure "c").2.ensureAll ["d", "a"]).indexOf? "c" = some 3 ∧
      (collect ["a", "b", "a"]).entries = ["a", "b"] := by
  have hbacks := (Backs.ofList ["a", "b", "a"]).ensure "c"
  have hsize : ((Table.ofList ["a", "b", "a"]).ensure "c").2.size < 0x100000000 := by decide
  obtain ⟨hanswers, -, hlater, hbuilt⟩ := hbacks.stable hsize
  have hfound : ((ofList ["a", "b", "a"]).ensure "c").2.indexOf? "c" = some 3 :=
    (hanswers.indexOf? "c").trans (by decide)
  exact ⟨hbacks, hsize, (hanswers.indexOf? "a").trans (by decide),
    (hanswers.get? 2).trans (by decide), (hlater ["d", "a"]).2 "c" 3 hfound,
    (hbuilt ["a", "b", "a"]).1.trans (by decide)⟩

end IndexedTable
end StackCode
