import StackCode.Bytecode.Basic
import StackCode.Graph.Basic
import StackCode.Instruction.Argument

/-!
Block graphs of encoded code.  One scan over the decoded instructions cuts them into blocks: a
block ends where the source line changes, in front of an instruction that some branch lands on,
behind a branch, and behind an instruction that execution does not continue from.  Branch
targets become labels once the scan has seen every instruction.
-/

namespace StackCode

/-- Where the code of a graph is cut. -/
structure Granularity where
  /-- Blocks also end in front of branch targets. -/
  splitAtTargets : Bool
  deriving DecidableEq, Repr, Inhabited

namespace Granularity

def fine : Granularity := { splitAtTargets := true }

/-- Fewer and larger blocks, with branches into their middle. -/
def coarse : Granularity := { splitAtTargets := false }

end Granularity

namespace Graph

/-- A block that is being built. -/
structure Draft where
  id : Nat
  line : Option UInt32
  body : Array Instruction
  /-- The opcode and the unit of the branch at the end. -/
  branch : Option (UInt8 × Nat)
  /-- Execution continues with the block that follows in the code. -/
  continues : Bool

/-- Where a scan stands. -/
structure Scan where
  /-- The closed blocks, last first. -/
  closed : List Draft
  /-- The block that takes the next instruction. -/
  current : Option Draft
  /-- The closed block that waits for its fallthrough. -/
  waiting : Option Nat
  line : Option UInt32
  /-- The label of each instruction, by offset. -/
  labels : Std.HashMap Nat Label

namespace Scan

def start : Scan :=
  { closed := [], current := none, waiting := none, line := none, labels := {} }

/-- Closes the current block, which then waits for its fallthrough. -/
def close (scan : Scan) : Except Error Scan :=
  match scan.current, scan.waiting with
  | none, _ => .ok scan
  | some draft, some waiting => .error (.waitingTwice waiting draft.id)
  | some draft, none =>
    .ok { scan with
      closed := draft :: scan.closed
      current := none
      waiting := some draft.id }

/-- Marks the block that waits as continuing. -/
def continueTo (waiting : Option Nat) : List Draft → List Draft
  | [] => []
  | draft :: rest =>
    if waiting = some draft.id then { draft with continues := true } :: rest else draft :: rest

/-- Takes out the current block, or a new one behind the closed ones. -/
def openBlock (scan : Scan) : Draft × Scan :=
  match scan.current with
  | some draft => (draft, { scan with current := none })
  | none =>
    let draft :=
      { id := (scan.closed.head?.map (·.id)).getD 0 + 1
        line := scan.line
        body := #[]
        branch := none
        continues := false }
    (draft, { scan with closed := continueTo scan.waiting scan.closed, waiting := none })

/-- Cuts in front of an instruction where a new line starts. -/
def enterLine (scan : Scan) : Option UInt32 → Except Error Scan
  | none => .ok scan
  | some line =>
    if scan.line = some line then .ok scan else close { scan with line := some line }

/-- Cuts in front of a branch target, unless the current block is still empty. -/
def enterTarget (scan : Scan) (cut : Bool) : Except Error Scan :=
  if cut && scan.current.any (fun draft => draft.body.size ≠ 0) then scan.close else .ok scan

/-- Takes one instruction. -/
def step (isa : InstructionSet) (metadata : Metadata) (granularity : Granularity) (scan : Scan)
    (decoded : Decoded) : Except Error Scan := do
  let scan ← scan.enterLine decoded.line
  let scan ← scan.enterTarget (decoded.isTarget && granularity.splitAtTargets)
  let (draft, scan) := scan.openBlock
  let labels := scan.labels.insert decoded.offset { block := draft.id, index := draft.body.size }
  let scan := { scan with labels }
  let kind ← isa.operandKind decoded.opcode
  let terminal := isa.isTerminal decoded.opcode
  if kind.isJump then
    match decoded.target with
    | none => throw (.unresolvedBranch decoded.offset)
    | some target =>
      return { scan with
        closed := { draft with branch := some (decoded.opcode, target) } :: scan.closed
        waiting := if terminal then none else some draft.id }
  else
    let operand ← Operand.ofArgument kind decoded.argument metadata
    let draft := { draft with body := draft.body.push { opcode := decoded.opcode, operand } }
    if terminal then
      return { scan with closed := draft :: scan.closed, waiting := none }
    else
      return { scan with current := some draft }

/-- All blocks, in the order of the code.  Without instructions there is one empty block. -/
def drafts (scan : Scan) : List Draft :=
  match scan.current, scan.closed with
  | none, [] => [scan.openBlock.1]
  | current, closed => (current.toList ++ closed).reverse

end Scan

/-- The block of a draft, with its branch resolved. -/
def Draft.toBlock (labels : Std.HashMap Nat Label) (draft : Draft) : Except Error BasicBlock :=
  let block (jump : Option Instruction) : BasicBlock :=
    { id := draft.id
      instructions := draft.body.toList
      jump
      fallthrough := if draft.continues then some (.start (draft.id + 1)) else none
      line := draft.line }
  match draft.branch with
  | none => .ok (block none)
  | some (opcode, target) =>
    match labels[target]? with
    | some label => .ok (block (some { opcode, operand := .label label }))
    | none => .error (.strayBranchTarget target)

/-- The block graph of decoded code.  Blocks are numbered from 1 in the order of the code. -/
def ofDecoded (isa : InstructionSet) (metadata : Metadata) (granularity : Granularity)
    (decoded : List Decoded) : Except Error Graph := do
  let scan ← decoded.foldlM (Scan.step isa metadata granularity) Scan.start
  let blocks ← scan.drafts.mapM (Draft.toBlock scan.labels)
  return {
    metadata, isa
    entry := 1
    blocks := blocks.map fun block => (block.id, .basic block) }

/-- The block graph of bytecode. -/
def ofBytecode (isa : InstructionSet) (metadata : Metadata) (granularity : Granularity)
    (bytecode : Bytecode) : Except Error Graph := do
  let decoded ← Decoded.ofBytecode isa bytecode
  ofDecoded isa metadata granularity decoded

end Graph
end StackCode
