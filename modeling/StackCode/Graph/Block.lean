import StackCode.Graph.Keyed
import StackCode.Instruction.Basic

/-!
Blocks: straight runs of instructions, and containers that group them.  Grouping does not affect
where blocks end up in the code.
-/

namespace StackCode

/-- A straight run of instructions. -/
structure BasicBlock where
  id : Nat
  /-- Instructions that do not branch, in execution order. -/
  instructions : List Instruction
  /-- The branch at the end. -/
  jump : Option Instruction
  /-- The block that must follow directly. -/
  fallthrough : Option Label
  /-- The source line of the instructions. -/
  line : Option UInt32
  deriving DecidableEq, Inhabited

namespace BasicBlock

def empty (id : Nat) (line : Option UInt32) : BasicBlock :=
  { id, instructions := [], jump := none, fallthrough := none, line }

/-- All instructions, the branch at the end included. -/
def all (block : BasicBlock) : List Instruction := block.instructions ++ block.jump.toList

def size (block : BasicBlock) : Nat := block.instructions.length + block.jump.toList.length

/-- The number of instructions of all of `blocks`. -/
def totalSize (blocks : List BasicBlock) : Nat :=
  blocks.foldr (fun block total => block.size + total) 0

def isEmpty (block : BasicBlock) : Bool := block.size = 0

/-- Puts `window` in place of the instructions from `start` up to `stop`. -/
def splice (block : BasicBlock) (start stop : Nat) (window : List Instruction) : BasicBlock :=
  { block with
    instructions := block.instructions.take start ++ window ++ block.instructions.drop stop }

theorem totalSize_cons (block : BasicBlock) (rest : List BasicBlock) :
    totalSize (block :: rest) = block.size + totalSize rest := rfl

theorem totalSize_append (front back : List BasicBlock) :
    totalSize (front ++ back) = totalSize front + totalSize back := by
  induction front with
  | nil => exact (Nat.zero_add _).symm
  | cons block rest ih => rw [List.cons_append, totalSize_cons, totalSize_cons, ih, Nat.add_assoc]

theorem length_all (block : BasicBlock) : block.all.length = block.size := List.length_append

/-- The label of the first instruction. -/
def label (block : BasicBlock) : Label := .start block.id

end BasicBlock

/-- A node of the block graph. -/
inductive Block where
  | basic (block : BasicBlock)
  /-- A container, with its children in ascending order of their keys. -/
  | group (id : Nat) (children : List (Nat × Block))
  deriving Inhabited

namespace Block

def id : Block → Nat
  | basic block => block.id
  | group id _ => id

mutual

/-- The basic blocks inside, depth first. -/
def leaves : Block → List BasicBlock
  | basic block => [block]
  | group _ children => leavesOf children

def leavesOf : List (Nat × Block) → List BasicBlock
  | [] => []
  | (_, child) :: rest => child.leaves ++ leavesOf rest

end

mutual

/-- The largest id inside. -/
def maxId : Block → Nat
  | basic block => block.id
  | group id children => max id (maxIdOf children)

def maxIdOf : List (Nat × Block) → Nat
  | [] => 0
  | (_, child) :: rest => max child.maxId (maxIdOf rest)

end

mutual

/-- Changes the first basic block inside that has the given id. -/
def modify? (id : Nat) (change : BasicBlock → BasicBlock) : Block → Option Block
  | basic block => if block.id = id then some (basic (change block)) else none
  | group own children => (modifyIn? id change children).map (group own)

def modifyIn? (id : Nat) (change : BasicBlock → BasicBlock) :
    List (Nat × Block) → Option (List (Nat × Block))
  | [] => none
  | (key, child) :: rest =>
    match child.modify? id change with
    | some child => some ((key, child) :: rest)
    | none => (modifyIn? id change rest).map ((key, child) :: ·)

end

end Block
end StackCode
