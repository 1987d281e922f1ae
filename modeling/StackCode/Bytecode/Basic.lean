import StackCode.Bytecode.Decoded
import StackCode.Bytecode.LineTable
import Std.Data.HashMap

/-!
Bytecode: the encoded form of a code unit, its units together with the line table.
-/

namespace StackCode

structure Bytecode where
  code : List UInt8
  firstLine : UInt32
  lineTable : List UInt8
  deriving DecidableEq, Repr, Inhabited

namespace Bytecode

def unitCount (bytecode : Bytecode) : Nat := bytecode.code.length / 2

def lineStarts (bytecode : Bytecode) : Except Error (List LineStart) :=
  LineTable.decode bytecode.firstLine bytecode.lineTable

end Bytecode

namespace Decoded

/-- The lines that start at each unit, up to the first line that does not start at an
instruction.  A line that starts behind the last instruction is ignored. -/
def linesByUnit (isStart : Nat → Bool) (stop : Nat) :
    List LineStart → Std.HashMap Nat UInt32 → Std.HashMap Nat UInt32 × Option Error
  | [], lines => (lines, none)
  | start :: rest, lines =>
    let unit := start.offset / 2
    let even := start.offset % 2 = 0
    if even ∧ unit = stop then linesByUnit isStart stop rest lines
    else if even ∧ isStart unit then
      linesByUnit isStart stop rest (lines.insert unit start.line)
    else (lines, some (.strayLineStart start.offset))

/-- Gives each line to the last instruction at its unit. -/
def setLines (lines : Std.HashMap Nat UInt32) (decoded : List Decoded) : List Decoded :=
  (decoded.foldr attach ([], lines)).1
where
  attach (d : Decoded) : List Decoded × Std.HashMap Nat UInt32 →
      List Decoded × Std.HashMap Nat UInt32
    | (done, lines) =>
      match lines[d.offset]? with
      | some line => ({ d with line := some line } :: done, lines.erase d.offset)
      | none => (d :: done, lines)

/-- Marks the instructions at which a line starts.  The lines in front of one that does not
start at an instruction are still attached. -/
def attachLines (decoded : List Decoded) (starts : List LineStart) :
    List Decoded × Option Error :=
  let offsets := Std.HashSet.ofList (decoded.map (·.offset))
  let stop := (decoded.getLast?.map (·.next)).getD 0
  let (lines, error) := linesByUnit offsets.contains stop starts {}
  (setLines lines decoded, error)

/-- Reads bytecode, its line table included. -/
def ofBytecode (isa : InstructionSet) (bytecode : Bytecode) : Except Error (List Decoded) := do
  let decoded ← ofCode isa bytecode.code
  let starts ← bytecode.lineStarts
  match attachLines decoded starts with
  | (decoded, none) => return decoded
  | (_, some error) => throw error

end Decoded
end StackCode
