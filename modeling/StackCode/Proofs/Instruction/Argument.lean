import StackCode.Instruction.Argument
import StackCode.Proofs.Outcome

/-!
Operands and their arguments.  A symbol is encoded as its first occurrence, so an argument that
was read from code and is encoded again keeps its meaning, and one that was encoded keeps its
value when it is read and encoded again.
-/

namespace StackCode

open Outcome

namespace Table

variable {α : Type} [DecidableEq α] {table : Table α} {value : α}

/-- A value that stands at an index has its first occurrence there or in front of it. -/
theorem indexOf?_of_get? {index : Nat} (hword : index < 0x100000000)
    (h : table.get? index = some value) :
    ∃ first, first ≤ index ∧ table.indexOf? value = some first ∧
      table.get? first = some value := by
  obtain ⟨hlt, hvalue⟩ := List.getElem?_eq_some_iff.mp h
  obtain ⟨first, hfirst⟩ : ∃ first, table.entries.idxOf? value = some first := by
    refine Option.isSome_iff_exists.mp (List.isSome_idxOf?.mpr ?_)
    exact hvalue ▸ List.getElem_mem hlt
  obtain ⟨hbound, hat, hbefore⟩ := List.idxOf?_eq_some_iff.mp hfirst
  have hle : first ≤ index := by
    refine Nat.le_of_not_lt fun hafter => ?_
    exact hbefore index hafter hvalue
  refine ⟨first, hle, ?_, List.getElem?_eq_some_iff.mpr ⟨hbound, hat⟩⟩
  have hmin : min maxIndex first = first := by
    rw [maxIndex]
    omega
  rw [indexOf?, hfirst, Option.map_some, hmin]

/-- A value is found where it stands first. -/
theorem indexOf?_of_first {index : Nat} (hword : index < 0x100000000)
    (h : table.get? index = some value)
    (hfirst : ∀ earlier < index, table.get? earlier ≠ table.get? index) :
    table.indexOf? value = some index := by
  obtain ⟨first, hle, hindex, hat⟩ := indexOf?_of_get? hword h
  have hsame : first = index := by
    refine Nat.le_antisymm hle (Nat.le_of_not_lt fun hlt => ?_)
    exact hfirst first hlt (hat.trans h.symm)
  rw [hindex, hsame]

/-- Where indices are words, a symbol is read back from its index. -/
theorem get?_of_indexOf? {index : Nat} (hsize : table.size < 0x100000000)
    (h : table.indexOf? value = some index) :
    table.get? index = some value ∧ index < table.size := by
  obtain ⟨first, hfirst, rfl⟩ := Option.map_eq_some_iff.mp h
  obtain ⟨hbound, hat, -⟩ := List.idxOf?_eq_some_iff.mp hfirst
  have hmin : min maxIndex first = first := by
    rw [size] at hsize
    rw [maxIndex]
    omega
  rw [hmin]
  exact ⟨List.getElem?_eq_some_iff.mpr ⟨hbound, hat⟩, hbound⟩

end Table

namespace Metadata

theorem closureName?_of_closureIndex? {metadata : Metadata} {index : Nat} {name : String}
    (hsize : metadata.cells.size + metadata.frees.size < 0x100000000)
    (h : metadata.closureIndex? name = some index) :
    metadata.closureName? index = some name := by
  rw [closureIndex?] at h
  split at h
  · rename_i cell hcell
    cases h
    obtain ⟨hat, hlt⟩ := Table.get?_of_indexOf? (by omega) hcell
    rw [closureName?, if_pos hlt, hat]
  · obtain ⟨hfree, -⟩ := Option.filter_eq_some_iff.mp h
    obtain ⟨free, hindex, rfl⟩ := Option.map_eq_some_iff.mp hfree
    obtain ⟨hat, -⟩ := Table.get?_of_indexOf? (by omega) hindex
    rw [closureName?, if_neg (by omega), Nat.add_sub_cancel_left, hat]

/-- A closure variable that stands at an index is found there or in front of it. -/
theorem closureIndex?_of_closureName? {metadata : Metadata} {index : Nat} {name : String}
    (hword : index < 0x100000000) (h : metadata.closureName? index = some name) :
    ∃ first, first ≤ index ∧ metadata.closureIndex? name = some first ∧
      metadata.closureName? first = some name := by
  rw [closureName?] at h
  by_cases hcell : index < metadata.cells.size
  · rw [if_pos hcell] at h
    obtain ⟨first, hle, hindex, hat⟩ := Table.indexOf?_of_get? hword h
    exact ⟨first, hle, by rw [closureIndex?, hindex], by rw [closureName?, if_pos (by omega), hat]⟩
  · rw [if_neg hcell] at h
    cases hindex : metadata.cells.indexOf? name with
    | some cell =>
      obtain ⟨hat, hlt⟩ := Table.get?_of_indexOf? (by omega) hindex
      exact ⟨cell, by omega, by rw [closureIndex?, hindex], by rw [closureName?, if_pos hlt, hat]⟩
    | none =>
      obtain ⟨first, hle, hfree, hat⟩ := Table.indexOf?_of_get? (by omega) h
      have hmax : metadata.cells.size + first ≤ Table.maxIndex := by
        rw [Table.maxIndex]
        omega
      refine ⟨metadata.cells.size + first, by omega, ?_, ?_⟩
      · rw [closureIndex?, hindex, hfree, Option.map_some]
        exact Option.filter_some_pos (by simpa using hmax)
      · rw [closureName?, if_neg (by omega), Nat.add_sub_cancel_left, hat]

/-- No entry in front of `index`, in the table that arguments of this kind index, is the same. -/
def FirstEntry (metadata : Metadata) (index : Nat) : OperandKind → Prop
  | .constant =>
    ∀ earlier < index, metadata.constants.get? earlier ≠ metadata.constants.get? index
  | .name => ∀ earlier < index, metadata.names.get? earlier ≠ metadata.names.get? index
  | .localName => ∀ earlier < index, metadata.locals.get? earlier ≠ metadata.locals.get? index
  | .closure => ∀ earlier < index, metadata.closureName? earlier ≠ metadata.closureName? index
  | .none | .immediate | .relativeJump | .absoluteJump => True

end Metadata

namespace Operand

theorem entryAt_eq_ok {α : Type} {table : TableKind} {index : Nat} {found : Option α} {entry : α} :
    entryAt table index found = .ok entry ↔ found = some entry := by
  cases found <;> simp [entryAt]

/-- The argument of an instruction as it is read back. -/
def readBack (kind : OperandKind) (argument : Nat) : Option Nat :=
  if kind = .none then Option.none else some argument

/-- An entry is read again from the index at which it is found. -/
theorem map_entryAt {α : Type} {table : TableKind} {symbol : String} {found : Option Nat}
    {get : Nat → Option α} {entry : α} {make : α → Operand} {value : Nat}
    (hvalue : indexIn table symbol found = .ok value)
    (hfirst : ∃ first, found = some first ∧ get first = some entry) :
    (entryAt table value (get value)).map make = .ok (make entry) := by
  obtain ⟨first, hfound, hat⟩ := hfirst
  rw [indexIn_eq_ok.mp hvalue, Option.some.injEq] at hfound
  exact map_eq_ok.mpr ⟨entry, entryAt_eq_ok.mpr (hfound ▸ hat), rfl⟩

theorem getD_lt {argument : Option Nat}
    (hword : ∀ index, argument = some index → index < 0x100000000) :
    argument.getD 0 < 0x100000000 := by
  cases argument with
  | none => decide
  | some index => exact hword index rfl

/-- Whatever was read from code, branches apart, can be encoded, and with no greater argument. -/
theorem argument_of_ofArgument {kind : OperandKind} {argument : Option Nat} {metadata : Metadata}
    {operand : Operand} (hplain : kind.isJump = false)
    (hword : ∀ index, argument = some index → index < 0x100000000)
    (hread : ofArgument kind argument metadata = .ok operand) (opcode : UInt8) (strict : Bool) :
    ∃ value ≤ argument.getD 0, operand.argument opcode kind metadata strict = .ok value ∧
      operand.label? = Option.none := by
  have hindex := getD_lt hword
  cases kind with
  | none =>
    cases hread
    exact ⟨0, Nat.zero_le _, rfl, rfl⟩
  | relativeJump => nomatch hplain
  | absoluteJump => nomatch hplain
  | immediate =>
    cases hread
    exact ⟨_, Nat.mod_le _ _, rfl, rfl⟩
  | constant =>
    obtain ⟨entry, hentry, rfl⟩ := map_eq_ok.mp hread
    obtain ⟨first, hle, hfirst, -⟩ := Table.indexOf?_of_get? hindex (entryAt_eq_ok.mp hentry)
    exact ⟨first, hle, indexIn_eq_ok.mpr hfirst, rfl⟩
  | name =>
    obtain ⟨entry, hentry, rfl⟩ := map_eq_ok.mp hread
    obtain ⟨first, hle, hfirst, -⟩ := Table.indexOf?_of_get? hindex (entryAt_eq_ok.mp hentry)
    exact ⟨first, hle, indexIn_eq_ok.mpr hfirst, rfl⟩
  | localName =>
    obtain ⟨entry, hentry, rfl⟩ := map_eq_ok.mp hread
    obtain ⟨first, hle, hfirst, -⟩ := Table.indexOf?_of_get? hindex (entryAt_eq_ok.mp hentry)
    exact ⟨first, hle, indexIn_eq_ok.mpr hfirst, rfl⟩
  | closure =>
    obtain ⟨entry, hentry, rfl⟩ := map_eq_ok.mp hread
    obtain ⟨first, hle, hfirst, -⟩ :=
      Metadata.closureIndex?_of_closureName? hindex (entryAt_eq_ok.mp hentry)
    exact ⟨first, hle, indexIn_eq_ok.mpr hfirst, rfl⟩

/-- Whatever was read from code is encoded with the argument it was read from, if that is the index
of the first such entry. -/
theorem argument_of_first {kind : OperandKind} {argument : Option Nat} {metadata : Metadata}
    {operand : Operand} (hplain : kind.isJump = false)
    (hnone : kind = .none → argument = Option.none)
    (hword : ∀ index, argument = some index → index < 0x100000000)
    (hread : ofArgument kind argument metadata = .ok operand)
    (hfirst : metadata.FirstEntry (argument.getD 0) kind) (opcode : UInt8) (strict : Bool) :
    operand.argument opcode kind metadata strict = .ok (argument.getD 0) := by
  have hindex := getD_lt hword
  cases kind with
  | none =>
    cases hread
    rw [hnone rfl]
    rfl
  | relativeJump => nomatch hplain
  | absoluteJump => nomatch hplain
  | immediate =>
    cases hread
    exact congrArg Except.ok (UInt32.toNat_ofNat_of_lt hindex)
  | constant =>
    obtain ⟨entry, hentry, rfl⟩ := map_eq_ok.mp hread
    exact indexIn_eq_ok.mpr
      (Table.indexOf?_of_first hindex (entryAt_eq_ok.mp hentry) hfirst)
  | name =>
    obtain ⟨entry, hentry, rfl⟩ := map_eq_ok.mp hread
    exact indexIn_eq_ok.mpr
      (Table.indexOf?_of_first hindex (entryAt_eq_ok.mp hentry) hfirst)
  | localName =>
    obtain ⟨entry, hentry, rfl⟩ := map_eq_ok.mp hread
    exact indexIn_eq_ok.mpr
      (Table.indexOf?_of_first hindex (entryAt_eq_ok.mp hentry) hfirst)
  | closure =>
    obtain ⟨entry, hentry, rfl⟩ := map_eq_ok.mp hread
    have hat := entryAt_eq_ok.mp hentry
    obtain ⟨first, hle, hfound, hname⟩ := Metadata.closureIndex?_of_closureName? hindex hat
    have hsame : first = argument.getD 0 := by
      refine Nat.le_antisymm hle (Nat.le_of_not_lt fun hlt => ?_)
      exact hfirst first hlt (hname.trans hat.symm)
    exact indexIn_eq_ok.mpr (hsame ▸ hfound)

/-- An operand that was read from code is read again from the argument that encodes it. -/
theorem ofArgument_readBack {kind : OperandKind} {argument : Option Nat} {metadata : Metadata}
    {operand : Operand} {opcode : UInt8} {strict : Bool} {value : Nat}
    (hword : ∀ index, argument = some index → index < 0x100000000)
    (hread : ofArgument kind argument metadata = .ok operand)
    (hvalue : operand.argument opcode kind metadata strict = .ok value) :
    ofArgument kind (readBack kind value) metadata = .ok operand := by
  have hindex := getD_lt hword
  cases kind with
  | none => exact hread
  | relativeJump => exact hread
  | absoluteJump => exact hread
  | immediate =>
    cases hread
    cases hvalue
    show Except.ok (immediate (.ofNat (UInt32.ofNat _).toNat)) = _
    rw [UInt32.ofNat_toNat]
  | constant =>
    obtain ⟨entry, hentry, rfl⟩ := map_eq_ok.mp hread
    obtain ⟨first, -, hfirst⟩ := Table.indexOf?_of_get? hindex (entryAt_eq_ok.mp hentry)
    exact map_entryAt hvalue ⟨first, hfirst⟩
  | name =>
    obtain ⟨entry, hentry, rfl⟩ := map_eq_ok.mp hread
    obtain ⟨first, -, hfirst⟩ := Table.indexOf?_of_get? hindex (entryAt_eq_ok.mp hentry)
    exact map_entryAt hvalue ⟨first, hfirst⟩
  | localName =>
    obtain ⟨entry, hentry, rfl⟩ := map_eq_ok.mp hread
    obtain ⟨first, -, hfirst⟩ := Table.indexOf?_of_get? hindex (entryAt_eq_ok.mp hentry)
    exact map_entryAt hvalue ⟨first, hfirst⟩
  | closure =>
    obtain ⟨entry, hentry, rfl⟩ := map_eq_ok.mp hread
    obtain ⟨first, -, hfirst⟩ :=
      Metadata.closureIndex?_of_closureName? hindex (entryAt_eq_ok.mp hentry)
    exact map_entryAt hvalue ⟨first, hfirst⟩

end Operand

/-- Every index into the tables is a word. -/
structure Metadata.Indexed (metadata : Metadata) : Prop where
  constants : metadata.constants.size < 0x100000000
  names : metadata.names.size < 0x100000000
  locals : metadata.locals.size < 0x100000000
  closures : metadata.cells.size + metadata.frees.size < 0x100000000

namespace Operand

/-- The operand as it is read back: a number that is absent is zero. -/
def explicit (operand : Operand) (kind : OperandKind) : Operand :=
  if kind = .immediate ∧ operand = Operand.none then .immediate 0 else operand

theorem explicit_of_ne {operand : Operand} (h : operand ≠ Operand.none) (kind : OperandKind) :
    operand.explicit kind = operand := if_neg fun hboth => h hboth.2

/-- What was encoded with care is read back from its argument. -/
theorem ofArgument_of_argument {kind : OperandKind} {metadata : Metadata} {operand : Operand}
    {opcode : UInt8} {value : Nat} (hindexed : metadata.Indexed) (hplain : kind.isJump = false)
    (h : operand.argument opcode kind metadata true = .ok value) :
    ofArgument kind (some value) metadata = .ok (operand.explicit kind) := by
  cases kind with
  | none =>
    cases operand with
    | none => rfl
    | _ => nomatch h
  | immediate =>
    cases operand with
    | none =>
      cases h
      rfl
    | immediate number =>
      cases h
      rw [explicit_of_ne (by simp)]
      show Except.ok (immediate (.ofNat number.toNat)) = _
      rw [UInt32.ofNat_toNat]
    | _ => nomatch h
  | constant =>
    cases operand with
    | constant entry =>
      obtain ⟨hat, -⟩ := Table.get?_of_indexOf? hindexed.constants (indexIn_eq_ok.mp h)
      exact map_entryAt h ⟨value, indexIn_eq_ok.mp h, hat⟩
    | _ => nomatch h
  | name =>
    cases operand with
    | name entry =>
      obtain ⟨hat, -⟩ := Table.get?_of_indexOf? hindexed.names (indexIn_eq_ok.mp h)
      exact map_entryAt h ⟨value, indexIn_eq_ok.mp h, hat⟩
    | _ => nomatch h
  | localName =>
    cases operand with
    | name entry =>
      obtain ⟨hat, -⟩ := Table.get?_of_indexOf? hindexed.locals (indexIn_eq_ok.mp h)
      exact map_entryAt h ⟨value, indexIn_eq_ok.mp h, hat⟩
    | _ => nomatch h
  | closure =>
    cases operand with
    | name entry =>
      have hat := Metadata.closureName?_of_closureIndex? hindexed.closures (indexIn_eq_ok.mp h)
      exact map_entryAt h ⟨value, indexIn_eq_ok.mp h, hat⟩
    | _ => nomatch h
  | relativeJump => nomatch hplain
  | absoluteJump => nomatch hplain

theorem ofArgument_readBack_some (kind : OperandKind) (value : Nat) (metadata : Metadata) :
    ofArgument kind (readBack kind value) metadata = ofArgument kind (some value) metadata := by
  cases kind <;> rfl

theorem argument_explicit (operand : Operand) (opcode : UInt8) (kind : OperandKind)
    (metadata : Metadata) (strict : Bool) :
    (operand.explicit kind).argument opcode kind metadata strict =
      operand.argument opcode kind metadata strict := by
  rw [explicit]
  split
  · rename_i h
    rw [h.1, h.2]
    rfl
  · rfl

theorem immediate?_explicit (operand : Operand) (kind : OperandKind) :
    (operand.explicit kind).immediate?.getD 0 = operand.immediate?.getD 0 := by
  rw [explicit]
  split
  · rename_i h
    rw [h.2]
    rfl
  · rfl

/-- What was encoded with care is encoded in the same way once it has been read, and has the same
effect on the stack. -/
theorem argument_readBack {kind : OperandKind} {metadata : Metadata} {operand : Operand}
    {opcode : UInt8} {value : Nat} (hindexed : metadata.Indexed) (hplain : kind.isJump = false)
    (h : operand.argument opcode kind metadata true = .ok value) :
    ∃ again, ofArgument kind (readBack kind value) metadata = .ok again ∧
      again.argument opcode kind metadata true = .ok value ∧
      again.immediate?.getD 0 = operand.immediate?.getD 0 := by
  refine ⟨operand.explicit kind, ?_, ?_, immediate?_explicit operand kind⟩
  · rw [ofArgument_readBack_some]
    exact ofArgument_of_argument hindexed hplain h
  · rw [argument_explicit]
    exact h

/-- Encoding and reading go back and forth.  What was encoded with care is read back.  What was read
is encoded with care, by no greater argument, as the index of the first such entry. -/
theorem argument_ofArgument {kind : OperandKind} {metadata : Metadata}
    (hindexed : metadata.Indexed) (hplain : kind.isJump = false) (opcode : UInt8) :
    (∀ (operand : Operand) (value : Nat), operand.argument opcode kind metadata true = .ok value →
      ofArgument kind (some value) metadata = .ok (operand.explicit kind)) ∧
    ∀ index < 0x100000000, ∀ operand : Operand,
      ofArgument kind (some index) metadata = .ok operand →
      ∃ first ≤ index, operand.argument opcode kind metadata true = .ok first ∧
        ofArgument kind (some first) metadata = .ok operand ∧
        (kind ≠ .none → metadata.FirstEntry index kind → first = index) := by
  refine ⟨fun operand value h => ofArgument_of_argument hindexed hplain h,
    fun index hindex operand hread => ?_⟩
  have hword : ∀ other, some index = some other → other < 0x100000000 := fun other hsame =>
    Option.some.inj hsame ▸ hindex
  obtain ⟨first, hle, hfirst, -⟩ := argument_of_ofArgument hplain hword hread opcode true
  refine ⟨first, hle, hfirst, ?_, fun hkind hentry => ?_⟩
  · rw [← ofArgument_readBack_some]
    exact ofArgument_readBack hword hread hfirst
  · have hsame := argument_of_first hplain (fun hnone => absurd hnone hkind) hword hread hentry
      opcode true
    exact Except.ok.inj (hfirst.symm.trans hsame)

/-- A name that is both a cell and free. -/
def shadowing : Metadata :=
  { (default : Metadata) with
    cells := .ofList ["a", "b"]
    frees := .ofList ["b", "c"] }

/-- The free name that a cell shadows is encoded as the cell. -/
theorem shadowing_argument :
    shadowing.Indexed ∧ OperandKind.closure.isJump = false ∧
      ofArgument .closure (some 2) shadowing = .ok (.name "b") ∧
      ∃ first ≤ 2, (Operand.name "b").argument 135 .closure shadowing true = .ok first ∧
        ofArgument .closure (some first) shadowing = .ok (.name "b") ∧
        (OperandKind.closure ≠ .none → shadowing.FirstEntry 2 .closure → first = 2) := by
  have hindexed : shadowing.Indexed := ⟨by decide, by decide, by decide, by decide⟩
  obtain ⟨-, hread⟩ := @argument_ofArgument .closure shadowing hindexed rfl 135
  exact ⟨hindexed, rfl, rfl, hread 2 (by decide) (.name "b") rfl⟩

theorem ofArgument_stackSize (kind : OperandKind) (argument : Option Nat) (metadata : Metadata)
    (stackSize : UInt32) :
    ofArgument kind argument { metadata with stackSize } = ofArgument kind argument metadata := by
  cases kind <;> rfl

theorem argument_stackSize (operand : Operand) (opcode : UInt8) (kind : OperandKind)
    (metadata : Metadata) (strict : Bool) (stackSize : UInt32) :
    operand.argument opcode kind { metadata with stackSize } strict =
      operand.argument opcode kind metadata strict := by
  cases kind <;> cases operand <;> rfl

end Operand
end StackCode
