import StackCode.Bytecode.Encoding
import StackCode.InstructionSet
import Std.Data.HashSet

/-!
Decoded instructions: encoded code read back as a list of instructions with their offsets.
Extension units are folded into the instruction they precede, branch targets are resolved to
unit offsets, and every instruction that some branch lands on is marked.
-/

namespace StackCode

/-- One instruction as it stands in encoded code.  Offsets and sizes count units. -/
structure Decoded where
  /-- Where the instruction starts, its extension units included. -/
  offset : Nat
  size : Nat
  opcode : UInt8
  /-- The folded argument, absent for opcodes without operand. -/
  argument : Option Nat
  /-- The unit that a branch lands on. -/
  target : Option Nat
  /-- The source line that starts here. -/
  line : Option UInt32
  isTarget : Bool
  deriving DecidableEq, Repr, Inhabited

namespace Decoded

/-- The offset of the instruction that follows. -/
def next (decoded : Decoded) : Nat := decoded.offset + decoded.size

/-- Extension units followed by one other unit. -/
structure Group where
  /-- The number of units. -/
  size : Nat
  opcode : UInt8
  /-- The argument bytes, folded from the most significant one. -/
  argument : Nat
  deriving DecidableEq, Repr

/-- Reads the rest of a group of which `count` extension units, folded to `high`, have been
read.  The group starts at `unit`. -/
def Group.read (extension : UInt8) (unit : Nat) (count high : Nat) :
    List UInt8 → Except Error (Group × List UInt8)
  | opcode :: low :: rest =>
    let argument := high * 256 + low.toNat
    if opcode = extension then
      if count = Encoding.maxExtensions then .error (.tooManyExtensions unit)
      else Group.read extension unit (count + 1) argument rest
    else .ok ({ size := count + 1, opcode, argument }, rest)
  | _ => .error .truncatedCode

/-- The unit that an instruction at `unit` branches to. -/
def Group.target (group : Group) (unit : Nat) : OperandKind → Except Error (Option Nat)
  | .absoluteJump => .ok (some group.argument)
  | .relativeJump =>
    let target := unit + group.size + group.argument
    if target < 0x100000000 then .ok (some target) else .error (.branchOverflow unit)
  | _ => .ok none

/-- The instruction that a group at `unit` encodes. -/
def ofGroup (isa : InstructionSet) (unit : Nat) (group : Group) : Except Error Decoded := do
  let kind ← isa.operandKind group.opcode
  let target ← group.target unit kind
  return {
    offset := unit
    size := group.size
    opcode := group.opcode
    argument := if kind = .none then none else some group.argument
    target
    line := none
    isTarget := false }

/-- Reads the instruction at the front of `bytes`, which stand at `unit`. -/
def read (isa : InstructionSet) (unit : Nat) (bytes : List UInt8) :
    Except Error (Decoded × List UInt8) :=
  match Group.read isa.extension unit 0 0 bytes with
  | .error error => .error error
  | .ok (group, rest) =>
    match ofGroup isa unit group with
    | .error error => .error error
    | .ok decoded => .ok (decoded, rest)

/-- The instruction that starts at `unit`. -/
def readAt (isa : InstructionSet) (code : List UInt8) (unit : Nat) : Except Error Decoded :=
  (read isa unit (code.drop (2 * unit))).map (·.1)

/-- Reads at most `fuel` instructions, in front of which stand those of `read`, last first. -/
def readAll (isa : InstructionSet) :
    (fuel unit : Nat) → List UInt8 → List Decoded → Except Error (List Decoded)
  | _, _, [], done => .ok done.reverse
  | 0, _, _ :: _, _ => .error .truncatedCode
  | fuel + 1, unit, bytes, done =>
    match read isa unit bytes with
    | .error error => .error error
    | .ok (decoded, rest) => readAll isa fuel decoded.next rest (decoded :: done)

/-- Marks the instructions that some branch lands on.  Every branch must land on one. -/
def markTargets (decoded : List Decoded) : Except Error (List Decoded) :=
  let offsets := Std.HashSet.ofList (decoded.map (·.offset))
  let targets := decoded.filterMap (·.target)
  match targets.find? (!offsets.contains ·) with
  | some target => .error (.strayBranchTarget target)
  | none =>
    let marked := Std.HashSet.ofList targets
    .ok (decoded.map fun d => { d with isTarget := marked.contains d.offset })

/-- Reads encoded code to its end. -/
def ofCode (isa : InstructionSet) (code : List UInt8) : Except Error (List Decoded) :=
  if code.length % 2 = 1 then .error (.oddCodeLength code.length)
  else
    match readAll isa (code.length / 2) 0 code [] with
    | .error error => .error error
    | .ok decoded => markTargets decoded

end Decoded
end StackCode
