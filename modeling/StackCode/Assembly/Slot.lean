import StackCode.Graph.Linear
import StackCode.Instruction.Argument

/-!
Slots: the instructions of a graph in layout order, with everything resolved that does not
depend on the layout.  Labels become slot indices and other operands become arguments.
-/

namespace StackCode

/-- One instruction of the flattened graph. -/
structure Slot where
  instruction : Instruction
  kind : OperandKind
  /-- The argument of an instruction that does not branch. -/
  argument : Nat
  /-- The index of the slot that a branch lands on. -/
  target : Option Nat
  deriving DecidableEq, Inhabited

/-- Slots, and the slot indices at which source lines start. -/
structure Flat where
  slots : List Slot
  lines : List (Nat × UInt32)
  deriving Inhabited

namespace Flat

/-- Blocks with the index of their first slot. -/
def placed (start : Nat) : List BasicBlock → List (BasicBlock × Nat)
  | [] => []
  | block :: rest => (block, start) :: placed (start + block.size) rest

/-- The index of the slot that a label names.  The end of a block is only addressable when
another instruction stands there. -/
def resolve (blocks : List (BasicBlock × Nat)) (total : Nat) (label : Label) :
    Except Error Nat :=
  match blocks.find? (·.1.id = label.block) with
  | none => .error (.danglingLabel label)
  | some (block, start) =>
    if block.size < label.index ∨ start + label.index = total then
      .error (.danglingLabel label)
    else .ok (start + label.index)

/-- The slot of an instruction in the body of a block. -/
def bodySlot (isa : InstructionSet) (metadata : Metadata) (verify : Bool) (block : Nat)
    (instruction : Instruction) : Except Error Slot := do
  let kind ← isa.operandKind instruction.opcode
  if kind.isJump then
    throw (.branchInBody block (instruction.toText isa))
  if let some label := instruction.label? then
    throw (.labelWithoutBranch block (instruction.toText isa) label)
  let argument ← instruction.operand.argument instruction.opcode kind metadata verify
  return { instruction, kind, argument, target := none }

/-- The slot of the branch at the end of a block. -/
def jumpSlot (isa : InstructionSet) (blocks : List (BasicBlock × Nat)) (total : Nat)
    (block : Nat) (instruction : Instruction) : Except Error Slot := do
  let kind ← isa.operandKind instruction.opcode
  if !kind.isJump then
    throw (.jumpDoesNotBranch block (instruction.toText isa))
  match instruction.label? with
  | none => throw (.branchWithoutLabel block (instruction.toText isa))
  | some label =>
    let target ← resolve blocks total label
    return { instruction, kind, argument := 0, target := some target }

/-- The slots of one block. -/
def blockSlots (isa : InstructionSet) (metadata : Metadata) (verify : Bool)
    (blocks : List (BasicBlock × Nat)) (total : Nat) (block : BasicBlock) :
    Except Error (List Slot) := do
  let body ← block.instructions.mapM (bodySlot isa metadata verify block.id)
  let jump ← block.jump.toList.mapM (jumpSlot isa blocks total block.id)
  return body ++ jump

/-- The slots at which a new source line starts.  Blocks without instructions have none, and a
block without a line continues the line in front of it. -/
def lineStarts (current : Option UInt32) : List (BasicBlock × Nat) → List (Nat × UInt32)
  | [] => []
  | (block, start) :: rest =>
    match block.line with
    | some line =>
      if block.isEmpty ∨ current = some line then lineStarts current rest
      else (start, line) :: lineStarts (some line) rest
    | none => lineStarts current rest

/-- Flattens blocks that stand in layout order. -/
def ofBlocks (isa : InstructionSet) (metadata : Metadata) (verify : Bool)
    (blocks : List BasicBlock) : Except Error Flat := do
  let total := BasicBlock.totalSize blocks
  let blocks := placed 0 blocks
  let slots ← blocks.mapM fun (block, _) => blockSlots isa metadata verify blocks total block
  return { slots := slots.flatten, lines := lineStarts none blocks }

end Flat

/-- Flattens a graph. -/
def Graph.flatten (graph : Graph) (verify : Bool) : Except Error Flat := do
  let blocks ← graph.linearize
  Flat.ofBlocks graph.isa graph.metadata verify blocks

end StackCode
