import StackCode.Assembly.Layout
import StackCode.Assembly.Settings
import StackCode.Assembly.StackHeight
import StackCode.Bytecode.Basic

/-!
Assembly: the bytecode of a block graph.
-/

namespace StackCode

/-- The outcome of assembling a graph. -/
structure Assembly where
  bytecode : Bytecode
  /-- The metadata of the graph, with the stack bound raised where that was asked for. -/
  metadata : Metadata
  /-- The greatest height of the value stack, where that was asked for. -/
  stackHeight : Option UInt32
  passes : Nat

/-- `value` as a word, the largest one if it does not fit. -/
def saturateToWord (value : Int) : UInt32 :=
  if value < 0x100000000 then .ofNat value.toNat else .ofNat 0xffffffff

/-- The line starts of slots at the given unit offsets, in bytes. -/
def Flat.lineStartsAt (flat : Flat) (offsets : Array Nat) : List LineStart :=
  flat.lines.map fun (index, line) => { offset := 2 * (offsets[index]?.getD 0), line }

/-- Assembles a graph. -/
def Graph.assemble (graph : Graph) (settings : AssemblySettings) : Except Error Assembly := do
  let flat ← graph.flatten settings.verify
  let layout ← Layout.ofSlots flat.slots settings.passes
  let (firstLine, lineTable) :=
    LineTable.encode graph.metadata.firstLine (flat.lineStartsAt layout.offsets)
  let bytecode :=
    { code := Layout.code graph.isa.extension flat.slots layout.widths, firstLine, lineTable }
  if settings.measureStack then
    let height := saturateToWord (← StackHeight.peak graph.isa flat.slots)
    return {
      bytecode
      metadata := { graph.metadata with stackSize := max graph.metadata.stackSize height }
      stackHeight := some height
      passes := layout.passes }
  else
    return { bytecode, metadata := graph.metadata, stackHeight := none, passes := layout.passes }

end StackCode
