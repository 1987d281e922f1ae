import StackCode.Assembly.Slot

/-!
The height of the value stack.  Slots are visited along the flow of control, each once, with the
height of the first path that reaches it.
-/

namespace StackCode
namespace StackHeight

/-- The slots that execution can continue with. -/
def successors (isa : InstructionSet) (index : Nat) (slot : Slot) : List Nat :=
  (if isa.isTerminal slot.instruction.opcode then [] else [index + 1]) ++ slot.target.toList

/-- Where a visit stands: the height in front of each slot that was reached, the slots that are
still to be visited, the one to visit next first, and the greatest height so far. -/
structure Visit where
  heights : Array (Option Int)
  pending : List Nat
  peak : Int

/-- Notes that slot `index` is reached with a stack of the given height. -/
def Visit.reach (height : Int) (visit : Visit) (index : Nat) : Visit :=
  if visit.heights[index]? = some none then
    { visit with
      heights := visit.heights.setIfInBounds index (some height)
      pending := index :: visit.pending }
  else visit

/-- Visits the pending slots, at most `fuel` of them.  A stack that would run below its bottom is
taken as empty. -/
def Visit.run (isa : InstructionSet) (slots : Array Slot) : Nat → Visit → Except Error Visit
  | 0, visit => .ok visit
  | fuel + 1, visit =>
    match visit.pending with
    | [] => .ok visit
    | index :: pending =>
      match slots[index]? with
      | none => Visit.run isa slots fuel { visit with pending }
      | some slot =>
        match slot.instruction.stackEffect isa with
        | .error error => .error error
        | .ok effect =>
          let height := max 0 ((visit.heights[index]?.join.getD 0) + effect)
          let visit := { visit with pending, peak := max visit.peak height }
          Visit.run isa slots fuel ((successors isa index slot).foldl (Visit.reach height) visit)

/-- The greatest height over the paths from the first slot. -/
def peak (isa : InstructionSet) (slots : List Slot) : Except Error Int := do
  let slots := slots.toArray
  let start : Visit :=
    { heights := Array.replicate slots.size none, pending := [], peak := 0 }
  let visit ← Visit.run isa slots (slots.size + 1) (start.reach 0 0)
  return visit.peak

end StackHeight
end StackCode
