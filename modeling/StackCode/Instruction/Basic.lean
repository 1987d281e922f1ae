import StackCode.Constant
import StackCode.InstructionSet

/-!
Instructions with symbolic operands.  Constants and names are held by value and branch targets
as labels, so that instructions keep their meaning while the code around them changes.
-/

namespace StackCode

/-- The argument of an instruction. -/
inductive Operand where
  | none
  | immediate (value : UInt32)
  | constant (value : Constant)
  | name (value : String)
  | label (target : Label)
  deriving DecidableEq, Inhabited

namespace Operand

def label? : Operand → Option Label
  | .label target => some target
  | _ => Option.none

def immediate? : Operand → Option UInt32
  | .immediate value => some value
  | _ => Option.none

/-- An opcode of the given kind expects this form of operand. -/
def fits : Operand → OperandKind → Bool
  | .none, kind => kind = .none
  | .immediate _, kind => kind = .immediate
  | .constant _, kind => kind = .constant
  | .name _, kind => kind = .name || kind = .localName || kind = .closure
  | .label _, kind => kind.isJump

/-- The operand as it is written behind a mnemonic. -/
def toText : Operand → String
  | .none => ""
  | .immediate value => toString value.toNat
  | .constant value => value.outline
  | .name value => value
  | .label target => target.toText

def outline : Operand → String
  | .none => "None"
  | .immediate value => Text.call "Immediate" [toString value.toNat]
  | .constant value => Text.call "Const" [value.outline]
  | .name value => Text.call "Name" [Text.quoteString value]
  | .label target => Text.call "Label" [target.outline]

end Operand

/-- One instruction of a code unit. -/
structure Instruction where
  opcode : UInt8
  operand : Operand
  deriving DecidableEq, Inhabited

namespace Instruction

/-- An instruction without operand. -/
def simple (opcode : UInt8) : Instruction := { opcode, operand := .none }

/-- The instruction with a given mnemonic, whose operand must fit the opcode. -/
def named (isa : InstructionSet) (mnemonic : String) (operand : Operand) :
    Except Error Instruction := do
  let opcode ← isa.opcodeOf mnemonic
  let kind ← isa.operandKind opcode
  if operand.fits kind then .ok { opcode, operand } else .error (.operandMismatch opcode kind)

def isJump (instruction : Instruction) (isa : InstructionSet) : Bool :=
  isa.isJump instruction.opcode

def isTerminal (instruction : Instruction) (isa : InstructionSet) : Bool :=
  isa.isTerminal instruction.opcode

/-- The change of stack height.  Only an immediate operand counts as an argument. -/
def stackEffect (instruction : Instruction) (isa : InstructionSet) : Except Error Int :=
  isa.stackEffect instruction.opcode instruction.operand.immediate?

def label? (instruction : Instruction) : Option Label := instruction.operand.label?

/-- Mnemonic and operand.  An unknown opcode is shown by its number. -/
def toText (instruction : Instruction) (isa : InstructionSet) : String :=
  let mnemonic :=
    match isa.get? instruction.opcode with
    | some definition => definition.mnemonic
    | none => "<" ++ Text.hexByte instruction.opcode ++ ">"
  match instruction.operand with
  | .none => mnemonic
  | operand => mnemonic ++ " " ++ operand.toText

def outline (instruction : Instruction) : String :=
  Text.record "Instruction"
    [("opcode", toString instruction.opcode.toNat), ("operand", instruction.operand.outline)]

end Instruction
end StackCode
