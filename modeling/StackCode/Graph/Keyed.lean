/-!
Lists of entries in ascending order of their keys, each key at most once.
-/

namespace StackCode
namespace Keyed

variable {α : Type}

def get? (key : Nat) : List (Nat × α) → Option α
  | [] => none
  | (k, value) :: rest => if k = key then some value else get? key rest

/-- Puts `value` under `key`, in place of a value that stands there. -/
def insert (key : Nat) (value : α) : List (Nat × α) → List (Nat × α)
  | [] => [(key, value)]
  | (k, v) :: rest =>
    if key < k then (key, value) :: (k, v) :: rest
    else if key = k then (key, value) :: rest
    else (k, v) :: insert key value rest

def erase (key : Nat) (entries : List (Nat × α)) : List (Nat × α) :=
  entries.filter fun entry => entry.1 ≠ key

def ofList (entries : List (Nat × α)) : List (Nat × α) :=
  entries.foldl (fun done entry => insert entry.1 entry.2 done) []

theorem get?_eq_none_iff {key : Nat} {entries : List (Nat × α)} :
    get? key entries = none ↔ ∀ entry ∈ entries, entry.1 ≠ key := by
  induction entries with
  | nil => simp [get?]
  | cons entry rest ih =>
    rw [get?, List.forall_mem_cons, ← ih]
    by_cases hkey : entry.1 = key
    · simp [hkey]
    · simp [hkey]

/-- A value under a new key comes between two entries, and all of them stay. -/
theorem exists_insert {key : Nat} {entries : List (Nat × α)}
    (h : ∀ entry ∈ entries, entry.1 ≠ key) (value : α) :
    ∃ front back, entries = front ++ back ∧
      insert key value entries = front ++ (key, value) :: back := by
  induction entries with
  | nil => exact ⟨[], [], rfl, rfl⟩
  | cons entry rest ih =>
    obtain ⟨hfirst, hrest⟩ := List.forall_mem_cons.mp h
    rw [insert]
    split
    · exact ⟨[], entry :: rest, rfl, rfl⟩
    · rw [if_neg fun same => hfirst same.symm]
      obtain ⟨front, back, hsplit, hinsert⟩ := ih hrest
      exact ⟨entry :: front, back, congrArg (entry :: ·) hsplit, congrArg (entry :: ·) hinsert⟩

/-- A value under the greatest key comes last. -/
theorem insert_of_lt {key : Nat} {entries : List (Nat × α)}
    (h : ∀ entry ∈ entries, entry.1 < key) (value : α) :
    insert key value entries = entries ++ [(key, value)] := by
  induction entries with
  | nil => rfl
  | cons entry rest ih =>
    obtain ⟨hfirst, hrest⟩ := List.forall_mem_cons.mp h
    rw [insert, if_neg (Nat.not_lt_of_lt hfirst), if_neg (Nat.ne_of_gt hfirst), ih hrest]
    rfl

/-! Looking up after a change. -/

theorem get?_insert_self (key : Nat) (value : α) (entries : List (Nat × α)) :
    get? key (insert key value entries) = some value := by
  induction entries with
  | nil => simp [insert, get?]
  | cons entry rest ih =>
    rw [insert]
    split
    · simp [get?]
    · split
      · simp [get?]
      · rename_i hne
        rw [get?, if_neg (fun e => hne e.symm), ih]

theorem get?_insert_of_ne {key other : Nat} (h : other ≠ key) (value : α)
    (entries : List (Nat × α)) : get? other (insert key value entries) = get? other entries := by
  induction entries with
  | nil => simp [insert, get?, Ne.symm h]
  | cons entry rest ih =>
    rw [insert]
    split
    · rw [get?, if_neg (Ne.symm h)]
    · split
      · rename_i heq
        rw [get?, get?, if_neg (Ne.symm h), if_neg (fun e => h (e.symm.trans heq.symm))]
      · rw [get?, get?, ih]

theorem get?_erase_self (key : Nat) (entries : List (Nat × α)) :
    get? key (erase key entries) = none := by
  induction entries with
  | nil => rfl
  | cons entry rest ih =>
    rw [erase, List.filter_cons]
    split
    · rename_i hne
      rw [get?, if_neg (of_decide_eq_true hne)]
      exact ih
    · exact ih

theorem get?_erase_of_ne {key other : Nat} (h : other ≠ key) (entries : List (Nat × α)) :
    get? other (erase key entries) = get? other entries := by
  induction entries with
  | nil => rfl
  | cons entry rest ih =>
    rw [erase, List.filter_cons]
    split
    · rw [get?, get?]
      split
      · rfl
      · exact ih
    · rename_i heq
      have same : entry.1 = key := by simpa using heq
      rw [get?, if_neg (fun e => h (e.symm.trans same))]
      exact ih

end Keyed
end StackCode
