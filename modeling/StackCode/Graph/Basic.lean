import StackCode.Graph.Block
import StackCode.Metadata

/-!
Block graphs.  A graph owns the metadata of one code unit, the instruction set it is expressed
in, and its blocks.
-/

namespace StackCode

/-- The block graph of one code unit. -/
structure Graph where
  metadata : Metadata
  isa : InstructionSet
  /-- The block that is executed first. -/
  entry : Nat
  /-- The outermost blocks, in ascending order of their keys. -/
  blocks : List (Nat × Block)

namespace Graph

/-- A graph without blocks.  Its entry block is still to be inserted. -/
def empty (metadata : Metadata) (isa : InstructionSet) (entry : Nat) : Graph :=
  { metadata, isa, entry, blocks := [] }

/-- The outermost block under `key`. -/
def get? (graph : Graph) (key : Nat) : Option Block := Keyed.get? key graph.blocks

/-- Adds an outermost block under its id, which must be free. -/
def insert (graph : Graph) (block : Block) : Except Error Graph :=
  match graph.get? block.id with
  | some _ => .error (.duplicateBlock block.id)
  | none => .ok { graph with blocks := Keyed.insert block.id block graph.blocks }

/-- Removes the outermost block under `key`. -/
def erase (graph : Graph) (key : Nat) : Graph :=
  { graph with blocks := Keyed.erase key graph.blocks }

/-- The basic blocks, depth first. -/
def leaves (graph : Graph) : List BasicBlock := Block.leavesOf graph.blocks

/-- The first basic block with the given id, at any depth. -/
def leaf? (graph : Graph) (id : Nat) : Option BasicBlock :=
  graph.leaves.find? (·.id = id)

/-- Changes the first basic block with the given id, if there is one. -/
def modifyLeaf? (graph : Graph) (id : Nat) (change : BasicBlock → BasicBlock) : Option Graph :=
  (Block.modifyIn? id change graph.blocks).map fun blocks => { graph with blocks }

/-- An id that no block has, at any depth. -/
def nextId (graph : Graph) : Nat := Block.maxIdOf graph.blocks + 1

def instructionCount (graph : Graph) : Nat := BasicBlock.totalSize graph.leaves

end Graph
end StackCode
