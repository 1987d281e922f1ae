import StackCode.Constant
import StackCode.Kind
import StackCode.Table

/-!
Metadata of a code unit: its header fields and the symbol tables that its instructions index.
-/

namespace StackCode

/-- Header flags.  Bits without a name are kept. -/
structure Flags where
  bits : UInt32
  deriving DecidableEq, Repr, Inhabited

namespace Flags

def none : Flags := { bits := 0 }

/-- The flags that have a name, in ascending order of bits. -/
def named : List (String × Flags) :=
  [("OPTIMIZED", { bits := 0x01 }), ("NEWLOCALS", { bits := 0x02 }),
   ("VARARGS", { bits := 0x04 }), ("VARKEYWORDS", { bits := 0x08 }),
   ("NESTED", { bits := 0x10 }), ("GENERATOR", { bits := 0x20 }),
   ("NOFREE", { bits := 0x40 }), ("COROUTINE", { bits := 0x80 })]

/-- Every bit of `other` is set. -/
def contains (flags other : Flags) : Bool := flags.bits &&& other.bits = other.bits

def insert (flags other : Flags) : Flags := { bits := flags.bits ||| other.bits }

def remove (flags other : Flags) : Flags := { bits := flags.bits &&& ~~~other.bits }

def complement (flags : Flags) : Flags := { bits := ~~~flags.bits }

/-- The names of the flags that are set. -/
def names (flags : Flags) : List String :=
  (named.filter fun flag => flags.contains flag.2).map (·.1)

end Flags

/-- Header fields and symbol tables of one code unit. -/
structure Metadata where
  name : String
  filename : String
  /-- The source line of the first instruction. -/
  firstLine : UInt32
  argCount : UInt32
  positionalOnlyCount : UInt32
  keywordOnlyCount : UInt32
  /-- The number of local slots. -/
  localCount : UInt32
  /-- The declared bound on the height of the value stack. -/
  stackSize : UInt32
  flags : Flags
  constants : Table Constant
  names : Table String
  locals : Table String
  frees : Table String
  cells : Table String
  deriving Inhabited

namespace Metadata

def ensureConstant (metadata : Metadata) (value : Constant) : Nat × Metadata :=
  let (index, constants) := metadata.constants.ensure value
  (index, { metadata with constants })

def ensureName (metadata : Metadata) (name : String) : Nat × Metadata :=
  let (index, names) := metadata.names.ensure name
  (index, { metadata with names })

/-- The number of local slots grows with the table. -/
def ensureLocal (metadata : Metadata) (name : String) : Nat × Metadata :=
  let (index, locals) := metadata.locals.ensure name
  (index, { metadata with locals, localCount := max metadata.localCount (.ofNat (index + 1)) })

def ensureFree (metadata : Metadata) (name : String) : Nat × Metadata :=
  let (index, frees) := metadata.frees.ensure name
  (index, { metadata with frees })

def ensureCell (metadata : Metadata) (name : String) : Nat × Metadata :=
  let (index, cells) := metadata.cells.ensure name
  (index, { metadata with cells })

/-- A value to be entered into a symbol table. -/
inductive Symbol where
  | constant (value : Constant)
  | name (name : String)
  | localName (name : String)
  | free (name : String)
  | cell (name : String)
  deriving DecidableEq, Inhabited

/-- The index of a symbol, which is entered into its table if it is absent. -/
def ensure (metadata : Metadata) : Symbol → Nat × Metadata
  | .constant value => metadata.ensureConstant value
  | .name name => metadata.ensureName name
  | .localName name => metadata.ensureLocal name
  | .free name => metadata.ensureFree name
  | .cell name => metadata.ensureCell name

/-- Enters symbols one after the other. -/
def ensureAll (metadata : Metadata) (symbols : List Symbol) : Metadata :=
  symbols.foldl (fun metadata symbol => (metadata.ensure symbol).2) metadata

/-- The index of a closure variable: the cells come first and the free names after them.  A
free name without an index of its own has none. -/
def closureIndex? (metadata : Metadata) (name : String) : Option Nat :=
  match metadata.cells.indexOf? name with
  | some index => some index
  | none =>
    ((metadata.frees.indexOf? name).map (metadata.cells.size + ·)).filter (· ≤ Table.maxIndex)

def closureName? (metadata : Metadata) (index : Nat) : Option String :=
  if index < metadata.cells.size then metadata.cells.get? index
  else metadata.frees.get? (index - metadata.cells.size)

theorem closureIndex?_le {metadata : Metadata} {name : String} {index : Nat}
    (h : metadata.closureIndex? name = some index) : index ≤ Table.maxIndex := by
  rw [closureIndex?] at h
  split at h
  case h_1 cell found => exact Option.some.inj h ▸ Table.indexOf?_le found
  case h_2 => exact of_decide_eq_true (Option.filter_eq_some_iff.mp h).2

/-- The number of indices that address `table`.  Free names share their indices with cells. -/
def tableSize (metadata : Metadata) : TableKind → Nat
  | .constants => metadata.constants.size
  | .names => metadata.names.size
  | .locals => metadata.locals.size
  | .frees => metadata.cells.size + metadata.frees.size
  | .cells => metadata.cells.size

end Metadata
end StackCode
