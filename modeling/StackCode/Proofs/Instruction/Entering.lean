import StackCode.Proofs.Table.Growth

/-!
Operands while symbols are entered.

The tables of a code unit only grow, so an operand that could be encoded can still be encoded, and its
argument is still read as the same operand.  The argument itself stays the same, but for closure
variables: free names have their indices behind those of the cells, and a cell hides a free name.
-/

namespace StackCode

/-! ## Growing tables -/

namespace Metadata

/-- No table of a code unit lost an entry, or has one at another index. -/
structure Grows (metadata later : Metadata) : Prop where
  constants : metadata.constants.Grows later.constants
  names : metadata.names.Grows later.names
  locals : metadata.locals.Grows later.locals
  frees : metadata.frees.Grows later.frees
  cells : metadata.cells.Grows later.cells

variable {metadata middle later : Metadata}

theorem Grows.refl (metadata : Metadata) : metadata.Grows metadata :=
  ⟨.refl _, .refl _, .refl _, .refl _, .refl _⟩

theorem Grows.trans (h : metadata.Grows middle) (h' : middle.Grows later) : metadata.Grows later where
  constants := h.constants.trans h'.constants
  names := h.names.trans h'.names
  locals := h.locals.trans h'.locals
  frees := h.frees.trans h'.frees
  cells := h.cells.trans h'.cells

theorem grows_ensure (metadata : Metadata) (symbol : Symbol) :
    metadata.Grows (metadata.ensure symbol).2 := by
  cases symbol with
  | constant value => exact { Grows.refl metadata with constants := Table.grows_ensure _ value }
  | name name => exact { Grows.refl metadata with names := Table.grows_ensure _ name }
  | localName name => exact { Grows.refl metadata with locals := Table.grows_ensure _ name }
  | free name => exact { Grows.refl metadata with frees := Table.grows_ensure _ name }
  | cell name => exact { Grows.refl metadata with cells := Table.grows_ensure _ name }

theorem grows_ensureAll (symbols : List Symbol) :
    ∀ metadata : Metadata, metadata.Grows (metadata.ensureAll symbols) := by
  induction symbols with
  | nil => exact fun metadata => Grows.refl metadata
  | cons symbol rest ih => exact fun metadata => (grows_ensure metadata symbol).trans (ih _)

/-- Indices that are words after a growth were words before it. -/
theorem Indexed.of_grows (h : metadata.Grows later) (hindexed : later.Indexed) :
    metadata.Indexed where
  constants := Nat.lt_of_le_of_lt h.constants.size_le hindexed.constants
  names := Nat.lt_of_le_of_lt h.names.size_le hindexed.names
  locals := Nat.lt_of_le_of_lt h.locals.size_le hindexed.locals
  closures := Nat.lt_of_le_of_lt (Nat.add_le_add h.cells.size_le h.frees.size_le) hindexed.closures

/-! ## Closure variables -/

/-- How a growth of the tables moves the index of a closure variable from `old` to `new`. -/
structure Moves (metadata later : Metadata) (name : String) (old new : Nat) : Prop where
  /-- A cell stays. -/
  cell : name ∈ metadata.cells.entries → new = old
  /-- A free name goes back by the number of cells that were added. -/
  free : name ∉ later.cells.entries → ∃ added,
    later.cells.entries = metadata.cells.entries ++ added ∧ new = old + added.length
  /-- A free name that was added as a cell is that cell. -/
  hidden : name ∉ metadata.cells.entries → name ∈ later.cells.entries →
    later.cells.indexOf? name = some new

theorem closureIndex?_of_cell {name : String} {index : Nat}
    (h : metadata.cells.indexOf? name = some index) :
    metadata.closureIndex? name = some index := by
  rw [closureIndex?, h]

theorem closureIndex?_of_free {name : String} {index : Nat} (hindexed : metadata.Indexed)
    (hcell : metadata.cells.indexOf? name = none)
    (hfree : metadata.frees.indexOf? name = some index) :
    metadata.closureIndex? name = some (metadata.cells.size + index) := by
  have hword := hindexed.closures
  obtain ⟨-, hlt⟩ := Table.get?_of_indexOf? (by omega) hfree
  have hmax : metadata.cells.size + index ≤ Table.maxIndex := by
    rw [Table.maxIndex]
    omega
  rw [closureIndex?, hcell, hfree]
  exact Option.filter_some_pos (by simpa using hmax)

/-- A closure variable is a cell, or else a free name behind the cells. -/
theorem closureIndex?_cases {name : String} {index : Nat}
    (h : metadata.closureIndex? name = some index) :
    metadata.cells.indexOf? name = some index ∨
      metadata.cells.indexOf? name = none ∧
        ∃ free, metadata.frees.indexOf? name = some free ∧ index = metadata.cells.size + free := by
  rw [closureIndex?] at h
  cases hcell : metadata.cells.indexOf? name with
  | some cell =>
    rw [hcell] at h
    exact .inl h
  | none =>
    rw [hcell] at h
    obtain ⟨free, hfree, hindex⟩ := Option.map_eq_some_iff.mp (Option.filter_eq_some_iff.mp h).1
    exact .inr ⟨rfl, free, hfree, hindex.symm⟩

/-- Whatever the tables grow by, a closure variable still has an index. -/
theorem Grows.closureIndex? (h : metadata.Grows later) (hindexed : later.Indexed) {name : String}
    {old : Nat} (hold : metadata.closureIndex? name = some old) :
    ∃ new, later.closureIndex? name = some new ∧ metadata.Moves later name old new := by
  rcases closureIndex?_cases hold with hcell | ⟨hcell, free, hfree, rfl⟩
  · have hlater := h.cells.indexOf? hcell
    have hmem : name ∈ metadata.cells.entries := Table.mem_of_indexOf? hcell
    exact ⟨old, closureIndex?_of_cell hlater,
      { cell := fun _ => rfl
        free := fun habsent => absurd (Table.mem_of_indexOf? hlater) habsent
        hidden := fun habsent => absurd hmem habsent }⟩
  · have habsent : name ∉ metadata.cells.entries := Table.indexOf?_eq_none_iff.mp hcell
    cases hlater : later.cells.indexOf? name with
    | some cell =>
      exact ⟨cell, closureIndex?_of_cell hlater,
        { cell := fun hmem => absurd hmem habsent
          free := fun hnot => absurd (Table.mem_of_indexOf? hlater) hnot
          hidden := fun _ _ => hlater }⟩
    | none =>
      obtain ⟨added, hadded, hsize⟩ := h.cells.exists_added
      refine ⟨later.cells.size + free,
        closureIndex?_of_free hindexed hlater (h.frees.indexOf? hfree),
        { cell := fun hmem => absurd hmem habsent
          free := fun _ => ⟨added, hadded, by omega⟩
          hidden := fun _ hmem => absurd hmem (Table.indexOf?_eq_none_iff.mp hlater) }⟩

end Metadata

/-! ## Operands -/

namespace Operand

variable {metadata later : Metadata} {kind : OperandKind} {operand : Operand} {opcode : UInt8}
  {old : Nat}

/-- Where the index of `operand` goes: only closure variables are moved. -/
structure Moves (operand : Operand) (kind : OperandKind) (metadata later : Metadata)
    (old new : Nat) : Prop where
  stays : kind ≠ .closure → new = old
  closure : kind = .closure → ∀ name, operand = .name name → metadata.Moves later name old new

theorem indexIn_of_grows {α : Type} [DecidableEq α] {table later : Table α} {entry : α}
    {kind : TableKind} {symbol : String} (h : table.Grows later)
    (hold : indexIn kind symbol (table.indexOf? entry) = .ok old) :
    indexIn kind symbol (later.indexOf? entry) = .ok old :=
  indexIn_eq_ok.mpr (h.indexOf? (indexIn_eq_ok.mp hold))

/-- What can be encoded with care can still be when the tables have grown. -/
theorem argument_of_grows (h : metadata.Grows later) (hindexed : later.Indexed)
    (hold : operand.argument opcode kind metadata true = .ok old) :
    ∃ new, operand.argument opcode kind later true = .ok new ∧
      operand.Moves kind metadata later old new := by
  have hstays : kind ≠ .closure → operand.argument opcode kind later true = .ok old →
      ∃ new, operand.argument opcode kind later true = .ok new ∧
        operand.Moves kind metadata later old new := fun hkind hlater =>
    ⟨old, hlater, fun _ => rfl, fun hclosure => absurd hclosure hkind⟩
  cases kind with
  | none | immediate =>
    refine hstays (by simp) ?_
    cases operand <;> exact hold
  | relativeJump | absoluteJump => cases operand <;> nomatch hold
  | constant =>
    cases operand with
    | constant entry => exact hstays (by simp) (indexIn_of_grows h.constants hold)
    | _ => nomatch hold
  | name =>
    cases operand with
    | name entry => exact hstays (by simp) (indexIn_of_grows h.names hold)
    | _ => nomatch hold
  | localName =>
    cases operand with
    | name entry => exact hstays (by simp) (indexIn_of_grows h.locals hold)
    | _ => nomatch hold
  | closure =>
    cases operand with
    | name entry =>
      obtain ⟨new, hnew, hmoves⟩ := h.closureIndex? hindexed (indexIn_eq_ok.mp hold)
      refine ⟨new, indexIn_eq_ok.mpr hnew, fun hkind => absurd rfl hkind, ?_⟩
      rintro - name hname
      exact Operand.name.inj hname ▸ hmoves
    | _ => nomatch hold

/-- Entering symbols leaves every operand good.  What could be encoded with care before can be
afterwards, and its argument is read as the same operand.  Only the index of a closure variable is
moved: that of a free name, by the cells that were added in front of it or to the cell that now has
its name.  Indices have to stay words throughout, and as no table shrinks that is to say at the end. -/
theorem argument_ensureAll {symbols : List Metadata.Symbol}
    (hindexed : (metadata.ensureAll symbols).Indexed) (hplain : kind.isJump = false)
    (hold : operand.argument opcode kind metadata true = .ok old) :
    ∃ new read, operand.argument opcode kind (metadata.ensureAll symbols) true = .ok new ∧
      ofArgument kind (some old) metadata = .ok read ∧
      ofArgument kind (some new) (metadata.ensureAll symbols) = .ok read ∧
      operand.Moves kind metadata (metadata.ensureAll symbols) old new := by
  have hgrows := Metadata.grows_ensureAll symbols metadata
  obtain ⟨new, hnew, hmoves⟩ := argument_of_grows hgrows hindexed hold
  exact ⟨new, operand.explicit kind, hnew,
    ofArgument_of_argument (hindexed.of_grows hgrows) hplain hold,
    ofArgument_of_argument hindexed hplain hnew, hmoves⟩

/-- A cell is entered in front of a free name. -/
theorem shadowing_ensureAll :
    (shadowing.ensureAll [.cell "d", .free "e", .cell "b", .constant .none]).Indexed ∧
      OperandKind.closure.isJump = false ∧
      (Operand.name "c").argument 135 .closure shadowing true = .ok 3 ∧
      ∃ new read, (Operand.name "c").argument 135 .closure
          (shadowing.ensureAll [.cell "d", .free "e", .cell "b", .constant .none]) true = .ok new ∧
        ofArgument .closure (some 3) shadowing = .ok read ∧
        ofArgument .closure (some new)
          (shadowing.ensureAll [.cell "d", .free "e", .cell "b", .constant .none]) = .ok read ∧
        (Operand.name "c").Moves .closure shadowing
          (shadowing.ensureAll [.cell "d", .free "e", .cell "b", .constant .none]) 3 new := by
  have hindexed :
      (shadowing.ensureAll [.cell "d", .free "e", .cell "b", .constant .none]).Indexed :=
    ⟨by decide, by decide, by decide, by decide⟩
  have hold : (Operand.name "c").argument 135 .closure shadowing true = .ok 3 := rfl
  exact ⟨hindexed, rfl, hold, argument_ensureAll hindexed rfl hold⟩

end Operand
end StackCode
