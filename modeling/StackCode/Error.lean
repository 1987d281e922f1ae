import StackCode.Kind
import StackCode.Label
import StackCode.Text.Quoted

/-!
Errors, by their cause.  `Error.message` is their wording, and `Error.category` groups them into
broken graphs, failed lookups and the rest.
-/

namespace StackCode

/-- Why an operation failed. -/
inductive Error where
  /-- The code ends inside an instruction. -/
  | truncatedCode
  | oddCodeLength (bytes : Nat)
  | tooManyExtensions (unit : Nat)
  | branchOverflow (unit : Nat)
  /-- A branch lands between two instructions or outside of the code. -/
  | strayBranchTarget (unit : Nat)
  | unresolvedBranch (unit : Nat)
  | oddLineTable (bytes : Nat)
  | lineOutOfRange (line : Int)
  /-- A line starts between two instructions or outside of the code. -/
  | strayLineStart (byte : Nat)
  | duplicateBlock (block : Nat)
  | danglingLabel (label : Label)
  | fallthroughInside (block : Nat) (target : Label)
  | sharedFallthrough (first second target : Nat)
  | fallthroughCycle (block : Nat)
  | entryFallenInto (block : Nat)
  /-- Two blocks wait for the block that follows them. -/
  | waitingTwice (waiting closing : Nat)
  | jumpDoesNotBranch (block : Nat) (instruction : String)
  | labelWithoutBranch (block : Nat) (instruction : String) (label : Label)
  | branchInBody (block : Nat) (instruction : String)
  | branchWithoutLabel (block : Nat) (instruction : String)
  | operandMismatch (opcode : UInt8) (expected : OperandKind)
  | symbolNotFound (table : TableKind) (symbol : String)
  | symbolIndex (table : TableKind) (index : Nat)
  | unboundCapture (name : String)
  | scopeMismatch
  | unknownOpcode (opcode : UInt8)
  | unknownMnemonic (mnemonic : String)
  | duplicateOpcode (opcode : UInt8)
  | backwardBranch (unit target : Nat)
  | distantBranch (unit target : Nat)
  | addressSpace (unit : Nat)
  | layoutDiverged (passes : Nat)
  deriving DecidableEq, Repr

/-- The kinds of error a caller tells apart. -/
inductive Category where
  /-- The block graph breaks one of its rules. -/
  | structural
  /-- A symbol, a capture or an opcode does not exist. -/
  | lookup
  | other
  deriving DecidableEq, Repr

namespace Error

def category : Error → Category
  | duplicateBlock _ | danglingLabel _ | fallthroughInside _ _ | sharedFallthrough _ _ _
  | fallthroughCycle _ | entryFallenInto _ | waitingTwice _ _ | jumpDoesNotBranch _ _
  | labelWithoutBranch _ _ _ | branchInBody _ _ | branchWithoutLabel _ _
  | operandMismatch _ _ => .structural
  | symbolNotFound _ _ | symbolIndex _ _ | unboundCapture _ | unknownOpcode _
  | unknownMnemonic _ => .lookup
  | _ => .other

def message : Error → String
  | truncatedCode => "Out of Bound read would have occurred!"
  | oddCodeLength bytes => s!"Unit stream has a length of {bytes} bytes"
  | tooManyExtensions unit => s!"More than 3 extension prefixes at unit {unit}"
  | branchOverflow unit => s!"Relative branch at unit {unit} overflows"
  | strayBranchTarget unit => s!"Branch target unit {unit} does not start an instruction"
  | unresolvedBranch unit => s!"Branch at unit {unit} has no resolved target"
  | oddLineTable bytes => s!"Position table has an odd length of {bytes}"
  | lineOutOfRange line => s!"Position table moves to line {line}"
  | strayLineStart byte => s!"Position entry at byte {byte} does not start an instruction"
  | duplicateBlock block => s!"Duplicate block id {block}"
  | danglingLabel label => s!"Label {label.toText} does not resolve inside this graph"
  | fallthroughInside block target =>
    s!"Block {block} falls through into {target.toText}, fallthrough must land on a block start"
  | sharedFallthrough first second target =>
    s!"Blocks {first} and {second} both fall through into block {target}"
  | fallthroughCycle block => s!"Fallthrough labels form a cycle through block {block}"
  | entryFallenInto block =>
    s!"Entry block {block} is the fallthrough target of another block"
  | waitingTwice waiting closing =>
    s!"Block {waiting} still waits for its fallthrough while block {closing} closes"
  | jumpDoesNotBranch block instruction =>
    s!"Block {block} ends in {instruction}, which does not branch"
  | labelWithoutBranch block instruction label =>
    s!"{instruction} in block {block} carries label {label.toText} but does not branch"
  | branchInBody block instruction =>
    s!"Branch {instruction} inside the body of block {block}"
  | branchWithoutLabel block instruction =>
    s!"Branch {instruction} in block {block} has no label"
  | operandMismatch opcode expected =>
    s!"Operand of opcode {Text.hexByte opcode} does not match its kind {expected.toText}"
  | symbolNotFound table symbol => s!"'{symbol}' is not present in the {table.toText} table"
  | symbolIndex table index => s!"Index {index} is out of range for the {table.toText} table"
  | unboundCapture name => s!"Capture '{name}' is not bound"
  | scopeMismatch => "Capture scope exited out of order"
  | unknownOpcode opcode => s!"Unknown opcode {Text.hexByte opcode}"
  | unknownMnemonic mnemonic => s!"Unknown mnemonic '{mnemonic}'"
  | duplicateOpcode opcode => s!"Opcode {Text.hexByte opcode} is already defined"
  | backwardBranch unit target =>
    s!"Invalid branch - Relative branch at unit {unit} targets unit {target}, " ++
      "which lies behind it"
  | distantBranch unit target =>
    s!"Invalid branch - Relative branch at unit {unit} to unit {target} " ++
      "does not fit 3 prefixes"
  | addressSpace unit =>
    s!"Invalid branch - Unit offset {unit} exceeds the address space"
  | layoutDiverged passes =>
    s!"Instruction layout did not converge after {passes} passes"

end Error
end StackCode
