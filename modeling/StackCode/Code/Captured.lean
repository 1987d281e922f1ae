import StackCode.Graph.Block
import StackCode.Pattern.Basic

/-!
What patterns over instructions capture: instructions, runs of them, operands, and heights of
the value stack.
-/

namespace StackCode

/-- A value that is captured while instructions are matched. -/
inductive CodeCapture where
  | instruction (instruction : Instruction)
  | run (instructions : List Instruction)
  | operand (operand : Operand)
  | height (height : Int)
  deriving DecidableEq, Inhabited

namespace CodeCapture

/-- The value as an operand.  A height reads as a number, if it is one that operands can have. -/
def operand? : CodeCapture → Option Operand
  | .operand value => some value
  | .instruction value => some value.operand
  | .height value =>
    if 0 ≤ value ∧ value < 0x100000000 then some (.immediate (.ofNat value.toNat)) else none
  | .run _ => none

/-- The value as a height. -/
def height? : CodeCapture → Option Int
  | .height value => some value
  | .operand (.immediate value) => some value.toNat
  | _ => none

/-- The value as a run of instructions. -/
def instructions? : CodeCapture → Option (List Instruction)
  | .instruction value => some [value]
  | .run values => some values
  | _ => none

/-- The value, read as an operand, is this one. -/
def isOperand (value : CodeCapture) (expected : Operand) : Bool :=
  value.operand? = some expected

instance : Capturable Instruction CodeCapture where
  ofToken := .instruction
  ofRun := .run
  isToken value token := value.instructions? = some [token]

end CodeCapture

/-- A pattern over the instructions of a block. -/
abbrev CodePattern := Pattern Instruction CodeCapture

/-- What is expected of an operand. -/
inductive OperandTest where
  | literal (operand : Operand)
  /-- The operand that `name` is bound to. -/
  | back (name : String)
  deriving DecidableEq

namespace CodePattern

/-- The operand is as expected. -/
def passes (captures : Captures CodeCapture) (operand : Operand) :
    Option OperandTest → Except Error Bool
  | none => .ok true
  | some (.literal expected) => .ok (operand = expected)
  | some (.back name) => (captures.get name).map (·.isOperand operand)

/-- An instruction with the given opcode.  Its operand can be tested and bound to a name. -/
def opcode (opcode : UInt8) (test : Option OperandTest) (capture : Option String) :
    CodePattern :=
  Pattern.satisfying fun captures instruction =>
    if instruction.opcode ≠ opcode then .ok .reject
    else do
      if ← passes captures instruction.operand test then
        match capture with
        | some name => return .bind [(name, .operand instruction.operand)]
        | none => return .accept
      else return .reject

/-- An instruction with one of the given opcodes, bound to a name if there is one. -/
def opcodeIn (opcodes : List UInt8) (capture : Option String) : CodePattern :=
  let pattern := Pattern.satisfying fun _ instruction =>
    .ok (if opcodes.contains instruction.opcode then .accept else .reject)
  match capture with
  | some name => pattern.capture name
  | none => pattern

/-- A run of instructions that changes the stack height by an accepted total, which is bound to
a name if there is one. -/
def stackRun (isa : InstructionSet) (totals : Totals) (capture : Option String) : CodePattern :=
  .weighted {
    weight := fun instruction => instruction.stackEffect isa
    totals
    capture := capture.map fun name => (name, .height) }

end CodePattern
end StackCode
