import StackCode.Error

/-!
Line tables: which source line is active from which byte of encoded code on.  A table is a list
of byte pairs.  The first byte of a pair advances the offset and the second, in two's
complement, moves the line; a line becomes active at the offset reached once every pair in front
of it has been read.  Larger advances and moves are split over several pairs.
-/

namespace StackCode

/-- A source line and the byte offset at which it becomes active. -/
structure LineStart where
  offset : Nat
  line : UInt32
  deriving DecidableEq, Repr, Inhabited

namespace LineTable

/-- One pair of a table. -/
structure Step where
  advance : UInt8
  move : Int8
  deriving DecidableEq

def Step.bytes (step : Step) : List UInt8 := [step.advance, step.move.toUInt8]

/-- The moves that add up to `delta`: whole ones of 127 or -128, and the rest. -/
def moves (delta : Int) : List Int8 :=
  if 127 < delta then
    let whole := (delta - 1) / 127
    List.replicate whole.toNat 127 ++ [.ofInt (delta - 127 * whole)]
  else if delta < -128 then
    let whole := (-delta - 1) / 128
    List.replicate whole.toNat (-128) ++ [.ofInt (delta + 128 * whole)]
  else [.ofInt delta]

/-- Moves, the first of which also advances by `advance` bytes. -/
def withAdvance (advance : UInt8) : List Int8 → List Step
  | [] => []
  | move :: rest => { advance, move } :: rest.map fun move => { advance := 0, move }

/-- The pairs between two line starts that are `bytes` apart.  Whole advances of 255 come first,
and the rest of the advance goes with the first move. -/
def stepsFor (bytes : Nat) (delta : Int) : List Step :=
  if bytes = 0 ∧ delta = 0 then []
  else
    let whole := (bytes - 1) / 255
    List.replicate whole { advance := 255, move := 0 } ++
      withAdvance (.ofNat (bytes - 255 * whole)) (moves delta)

/-- The pairs behind the line start `previous`. -/
def stepsFrom (previous : LineStart) (starts : List LineStart) : List Step :=
  (List.zip (previous :: starts) starts).flatMap fun (previous, start) =>
    stepsFor (start.offset - previous.offset)
      ((start.line.toNat : Int) - (previous.line.toNat : Int))

/-- The first line and the table for these starts, which must be ordered by offset.  Without
starts the first line is `default` and the table is empty. -/
def encode (default : UInt32) : List LineStart → UInt32 × List UInt8
  | [] => (default, [])
  | first :: rest =>
    let steps := stepsFrom { offset := 0, line := first.line } (first :: rest)
    (first.line, steps.flatMap Step.bytes)

/-- Where reading a table stands: the offset, the line there, and the last line that started,
with the line starts so far, last first. -/
structure Reader where
  offset : Nat
  line : Int
  last : Option Int
  starts : List LineStart

/-- Starts the current line at the current offset, unless it is active already. -/
def Reader.start (reader : Reader) : Except Error Reader :=
  if reader.last = some reader.line then .ok reader
  else if 0 ≤ reader.line ∧ reader.line < 0x100000000 then
    .ok { reader with
      last := some reader.line
      starts := { offset := reader.offset, line := .ofNat reader.line.toNat } :: reader.starts }
  else .error (.lineOutOfRange reader.line)

/-- Reads one pair.  The line that is left behind starts if the offset moves on. -/
def Reader.step (reader : Reader) (step : Step) : Except Error Reader := do
  let reader ← if step.advance = 0 then .ok reader else reader.start
  return { reader with
    offset := reader.offset + step.advance.toNat
    line := reader.line + step.move.toInt }

def readSteps : Reader → List UInt8 → Except Error Reader
  | reader, advance :: move :: rest =>
    match reader.step { advance, move := move.toInt8 } with
    | .error error => .error error
    | .ok reader => readSteps reader rest
  | reader, _ => .ok reader

/-- The line starts of a table, of which the first is at offset 0. -/
def decode (firstLine : UInt32) (table : List UInt8) : Except Error (List LineStart) := do
  if table.length % 2 = 1 then
    throw (.oddLineTable table.length)
  let reader ←
    readSteps { offset := 0, line := firstLine.toNat, last := none, starts := [] } table
  let reader ← reader.start
  return reader.starts.reverse

end LineTable
end StackCode
