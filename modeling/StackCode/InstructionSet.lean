import StackCode.Error

/-!
Instruction sets: what each opcode of a stack machine does to control flow and to the value
stack, and what its argument refers to.  One opcode, the extension, is kept free: it carries the
high bytes of arguments that do not fit one byte.
-/

namespace StackCode

/-- How an opcode affects control flow. -/
inductive Flow where
  | sequential
  /-- Branches or continues with the next instruction. -/
  | conditional
  | unconditional
  /-- Leaves the code unit. -/
  | leaves
  deriving DecidableEq, Repr, Inhabited

/-- What an opcode adds to the height of the value stack. -/
inductive StackEffect where
  | fixed (delta : Int32)
  /-- `base + perArgument * argument`. -/
  | linear (base perArgument : Int32)
  deriving DecidableEq, Inhabited

/-- `value`, moved to the nearest end of the 32 bit range if it lies outside. -/
def clampToWord (value : Int) : Int := max (-0x80000000) (min 0x7fffffff value)

/-- The change of height for a given argument. -/
def StackEffect.delta : StackEffect → UInt32 → Int
  | .fixed delta, _ => delta.toInt
  | .linear base perArgument, argument =>
    clampToWord (perArgument.toInt * argument.toNat + base.toInt)

/-- The description of one opcode. -/
structure Definition where
  opcode : UInt8
  mnemonic : String
  operand : OperandKind
  flow : Flow
  stack : StackEffect
  deriving DecidableEq, Inhabited

/-- Execution never continues behind such an opcode. -/
def Definition.isTerminal (definition : Definition) : Bool :=
  definition.flow = .unconditional || definition.flow = .leaves

/-- An instruction set, in ascending order of opcodes. -/
structure InstructionSet where
  extension : UInt8
  definitions : List Definition
  ascending : definitions.Pairwise (fun a b => a.opcode < b.opcode)
  mnemonics_nodup : (definitions.map Definition.mnemonic).Nodup
  extension_free : ∀ d ∈ definitions, d.opcode ≠ extension

namespace InstructionSet

def empty (extension : UInt8) : InstructionSet where
  extension := extension
  definitions := []
  ascending := .nil
  mnemonics_nodup := .nil
  extension_free := by simp

def size (isa : InstructionSet) : Nat := isa.definitions.length

def get? (isa : InstructionSet) (opcode : UInt8) : Option Definition :=
  isa.definitions.find? (·.opcode = opcode)

def opcodeOf? (isa : InstructionSet) (mnemonic : String) : Option UInt8 :=
  (isa.definitions.find? (·.mnemonic = mnemonic)).map (·.opcode)

def get (isa : InstructionSet) (opcode : UInt8) : Except Error Definition :=
  match isa.get? opcode with
  | some definition => .ok definition
  | none => .error (.unknownOpcode opcode)

def opcodeOf (isa : InstructionSet) (mnemonic : String) : Except Error UInt8 :=
  match isa.opcodeOf? mnemonic with
  | some opcode => .ok opcode
  | none => .error (.unknownMnemonic mnemonic)

def operandKind (isa : InstructionSet) (opcode : UInt8) : Except Error OperandKind :=
  (isa.get opcode).map (·.operand)

/-- The change of stack height; an absent argument counts as zero. -/
def stackEffect (isa : InstructionSet) (opcode : UInt8) (argument : Option UInt32) :
    Except Error Int :=
  (isa.get opcode).map fun definition => definition.stack.delta (argument.getD 0)

/-- Unknown opcodes do not branch. -/
def isJump (isa : InstructionSet) (opcode : UInt8) : Bool :=
  (isa.get? opcode).any (·.operand.isJump)

def isTerminal (isa : InstructionSet) (opcode : UInt8) : Bool :=
  (isa.get? opcode).any (·.isTerminal)

/-- `definition` at its place in an ascending list. -/
def place (definition : Definition) : List Definition → List Definition
  | [] => [definition]
  | d :: rest =>
    if definition.opcode < d.opcode then definition :: d :: rest else d :: place definition rest

theorem place_perm (definition : Definition) (ds : List Definition) :
    (place definition ds).Perm (definition :: ds) := by
  induction ds with
  | nil => exact .refl _
  | cons d rest ih =>
    unfold place
    split
    · exact .refl _
    · exact (ih.cons d).trans (.swap definition d rest)

theorem place_ascending {definition : Definition} {ds : List Definition}
    (ascending : ds.Pairwise (fun a b => a.opcode < b.opcode))
    (fresh : ∀ d ∈ ds, d.opcode ≠ definition.opcode) :
    (place definition ds).Pairwise (fun a b => a.opcode < b.opcode) := by
  induction ds with
  | nil => simp [place]
  | cons d rest ih =>
    obtain ⟨head, tail⟩ := List.pairwise_cons.mp ascending
    have hd := fresh d (by simp)
    unfold place
    split
    case isTrue h =>
      refine List.pairwise_cons.mpr ⟨fun e he => ?_, ascending⟩
      rcases List.mem_cons.mp he with rfl | he
      · exact h
      · exact UInt8.lt_trans h (head e he)
    case isFalse h =>
      have hlt : d.opcode < definition.opcode := by
        rw [UInt8.lt_iff_toNat_lt] at h ⊢
        have : d.opcode.toNat ≠ definition.opcode.toNat := fun e => hd (UInt8.toNat_inj.mp e)
        omega
      refine List.pairwise_cons.mpr ⟨fun e he => ?_, ih tail fun e he => fresh e (by simp [he])⟩
      rcases List.mem_cons.mp ((place_perm definition rest).mem_iff.mp he) with rfl | he
      · exact hlt
      · exact head e he

/-- Adds a definition.  An opcode or a mnemonic that is taken is refused, and so is the
extension; the error names the opcode that is in the way. -/
def define (isa : InstructionSet) (definition : Definition) : Except Error InstructionSet :=
  if taken : definition.opcode = isa.extension ∨
      ∃ d ∈ isa.definitions, d.opcode = definition.opcode then
    .error (.duplicateOpcode definition.opcode)
  else
    match named : isa.opcodeOf? definition.mnemonic with
    | some opcode => .error (.duplicateOpcode opcode)
    | none =>
      .ok {
        extension := isa.extension
        definitions := place definition isa.definitions
        ascending := place_ascending isa.ascending fun d hd e => taken (.inr ⟨d, hd, e⟩)
        mnemonics_nodup := by
          have fresh : definition.mnemonic ∉ isa.definitions.map Definition.mnemonic := by
            simpa [opcodeOf?, List.find?_eq_none] using named
          exact ((place_perm definition _).map _).nodup_iff.mpr
            (List.nodup_cons.mpr ⟨fresh, isa.mnemonics_nodup⟩)
        extension_free := by
          intro d hd
          rcases List.mem_cons.mp ((place_perm definition _).mem_iff.mp hd) with rfl | hd
          · exact fun e => taken (.inl e)
          · exact isa.extension_free d hd }

/-- Adds definitions one after the other, up to the first that is refused. -/
def ofDefinitions (extension : UInt8) (definitions : List Definition) :
    Except Error InstructionSet :=
  definitions.foldlM define (empty extension)

end InstructionSet
end StackCode
