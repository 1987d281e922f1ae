import StackCode.Graph.Basic

/-!
Linear order.  A fallthrough forces two blocks to be adjacent, and everything else about their
order is free.  Every block starts as a run of its own, and runs are joined along fallthroughs.
The run of the entry block goes first, and the others follow in ascending order of the id of
their first block, so that the order depends on nothing but the graph.
-/

namespace StackCode
namespace Graph

/-- Blocks that stand next to each other. -/
abbrev Run := List BasicBlock

namespace Run

def startsAt (id : Nat) (run : Run) : Bool := run.head?.any (·.id = id)

/-- The last block falls through to block `id`. -/
def fallsInto (id : Nat) (run : Run) : Bool :=
  run.getLast?.any fun block => block.fallthrough.any (·.block = id)

/-- The id of the first block. -/
def key (run : Run) : Nat := (run.head?.map (·.id)).getD 0

end Run

/-- The targets of the fallthroughs of `leaves`, which come after `seen`.  Ids must be distinct,
a fallthrough must land on a block start, and no two may land on the same block. -/
def fallthroughTargets (seen : List BasicBlock) : List BasicBlock → Except Error (List Nat)
  | [] => .ok (seen.filterMap fun block => block.fallthrough.map (·.block))
  | block :: rest =>
    if seen.any (·.id = block.id) then .error (.duplicateBlock block.id)
    else
      match block.fallthrough with
      | none => fallthroughTargets (block :: seen) rest
      | some target =>
        if target.index ≠ 0 then .error (.fallthroughInside block.id target)
        else
          match seen.find? (fun other => other.fallthrough.any (·.block = target.block)) with
          | some other => .error (.sharedFallthrough other.id block.id target.block)
          | none => fallthroughTargets (block :: seen) rest

/-- Joins the run that falls into block `target` with the run that starts there. -/
def joinAt (target : Nat) (runs : List Run) : Except Error (List Run) :=
  match runs.find? (Run.startsAt target) with
  | none => .error (.danglingLabel (.start target))
  | some tail =>
    if tail.fallsInto target then .error (.fallthroughCycle target)
    else
      .ok ((runs.filter fun run => !run.startsAt target).map fun run =>
        if run.fallsInto target then run ++ tail else run)

/-- The basic blocks in the order in which they are laid out. -/
def linearize (graph : Graph) : Except Error (List BasicBlock) := do
  let leaves := graph.leaves
  let targets ← fallthroughTargets [] leaves
  let runs ← (targets.mergeSort (· ≤ ·)).foldlM (fun runs target => joinAt target runs)
    (leaves.map fun block => [block])
  match runs.find? (Run.startsAt graph.entry) with
  | none =>
    if leaves.any (·.id = graph.entry) then .error (.entryFallenInto graph.entry)
    else .error (.danglingLabel (.start graph.entry))
  | some first =>
    let others := runs.filter fun run => !run.startsAt graph.entry
    .ok (first ++ (others.mergeSort fun a b => a.key ≤ b.key).flatten)

end Graph
end StackCode
