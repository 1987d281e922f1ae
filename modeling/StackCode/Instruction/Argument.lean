import StackCode.Instruction.Basic
import StackCode.Metadata

/-!
Operands and their encoded arguments.  Symbols are encoded as the index of their first
occurrence in the table that the kind of the opcode names.  Branches are not handled here: their
arguments depend on the layout.
-/

namespace StackCode
namespace Operand

/-- The index of a symbol, or the error that names it. -/
def indexIn (table : TableKind) (symbol : String) : Option Nat → Except Error Nat
  | some index => .ok index
  | Option.none => .error (.symbolNotFound table symbol)

/-- The argument that encodes an operand of a non-branching opcode.  Unless `strict` is set, a
number is accepted as a raw index for any kind, and an absent operand as zero. -/
def argument (operand : Operand) (opcode : UInt8) (kind : OperandKind) (metadata : Metadata)
    (strict : Bool) : Except Error Nat :=
  match kind, operand with
  | .none, .none => .ok 0
  | .immediate, .none => .ok 0
  | .immediate, .immediate value => .ok value.toNat
  | .constant, .constant value =>
    indexIn .constants value.outline (metadata.constants.indexOf? value)
  | .name, .name value => indexIn .names value (metadata.names.indexOf? value)
  | .localName, .name value => indexIn .locals value (metadata.locals.indexOf? value)
  | .closure, .name value => indexIn .frees value (metadata.closureIndex? value)
  | kind, .immediate value =>
    if strict || kind.isJump then .error (.operandMismatch opcode kind) else .ok value.toNat
  | kind, .none =>
    if strict || kind.isJump then .error (.operandMismatch opcode kind) else .ok 0
  | kind, _ => .error (.operandMismatch opcode kind)

theorem indexIn_eq_ok {table : TableKind} {symbol : String} {found : Option Nat} {index : Nat} :
    indexIn table symbol found = .ok index ↔ found = some index := by
  cases found <;> simp [indexIn]

theorem eq_of_unless {bad : Bool} {error : Error} {argument value : Nat}
    (h : (if bad then .error error else .ok argument : Except Error Nat) = .ok value) :
    value = argument := by
  cases bad with
  | true => nomatch h
  | false => exact (Except.ok.inj h).symm

/-- Arguments are words. -/
theorem argument_lt {operand : Operand} {opcode : UInt8} {kind : OperandKind}
    {metadata : Metadata} {strict : Bool} {value : Nat}
    (h : operand.argument opcode kind metadata strict = .ok value) : value < 0x100000000 := by
  have word : ∀ {index : Nat}, index ≤ Table.maxIndex → index < 0x100000000 := fun h => by
    rw [Table.maxIndex] at h
    omega
  cases operand with
  | none =>
    have hzero : value = 0 := by
      cases kind <;> first | exact (Except.ok.inj h).symm | exact eq_of_unless h
    omega
  | immediate number =>
    have hnumber : value = number.toNat := by
      cases kind <;> first | exact (Except.ok.inj h).symm | exact eq_of_unless h
    rw [hnumber]
    exact number.toNat_lt
  | constant entry =>
    cases kind with
    | constant => exact word (Table.indexOf?_le (indexIn_eq_ok.mp h))
    | _ => nomatch h
  | name entry =>
    cases kind with
    | name => exact word (Table.indexOf?_le (indexIn_eq_ok.mp h))
    | localName => exact word (Table.indexOf?_le (indexIn_eq_ok.mp h))
    | closure => exact word (Metadata.closureIndex?_le (indexIn_eq_ok.mp h))
    | _ => nomatch h
  | label target => cases kind <;> nomatch h

/-- The entry at `index`, or the error that names the table. -/
def entryAt (table : TableKind) (index : Nat) : Option α → Except Error α
  | some entry => .ok entry
  | Option.none => .error (.symbolIndex table index)

/-- The operand that an argument encodes.  An absent argument counts as zero, and branches have
no operand until their targets are known. -/
def ofArgument (kind : OperandKind) (argument : Option Nat) (metadata : Metadata) :
    Except Error Operand :=
  let index := argument.getD 0
  match kind with
  | .none | .relativeJump | .absoluteJump => .ok .none
  | .immediate => .ok (.immediate (.ofNat index))
  | .constant => (entryAt .constants index (metadata.constants.get? index)).map .constant
  | .name => (entryAt .names index (metadata.names.get? index)).map .name
  | .localName => (entryAt .locals index (metadata.locals.get? index)).map .name
  | .closure => (entryAt .frees index (metadata.closureName? index)).map .name

end Operand
end StackCode
