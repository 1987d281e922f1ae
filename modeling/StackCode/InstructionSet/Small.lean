import StackCode.InstructionSet

/-!
A small stack machine: an instruction set with opcodes of every kind, for examples.
-/

namespace StackCode
namespace InstructionSet

/-- The extension of the small machine. -/
def smallExtension : UInt8 := 144

/-- The opcodes of the small machine. -/
def smallDefinitions : List Definition :=
  [{ opcode := 1, mnemonic := "POP_TOP", operand := .none, flow := .sequential,
      stack := .fixed (-1) },
   { opcode := 9, mnemonic := "NOP", operand := .none, flow := .sequential, stack := .fixed 0 },
   { opcode := 20, mnemonic := "BINARY_MULTIPLY", operand := .none, flow := .sequential,
      stack := .fixed (-1) },
   { opcode := 23, mnemonic := "BINARY_ADD", operand := .none, flow := .sequential,
      stack := .fixed (-1) },
   { opcode := 24, mnemonic := "BINARY_SUBTRACT", operand := .none, flow := .sequential,
      stack := .fixed (-1) },
   { opcode := 83, mnemonic := "RETURN_VALUE", operand := .none, flow := .leaves,
      stack := .fixed (-1) },
   { opcode := 90, mnemonic := "STORE_NAME", operand := .name, flow := .sequential,
      stack := .fixed (-1) },
   { opcode := 93, mnemonic := "FOR_ITER", operand := .relativeJump, flow := .conditional,
      stack := .fixed 1 },
   { opcode := 97, mnemonic := "STORE_GLOBAL", operand := .name, flow := .sequential,
      stack := .fixed (-1) },
   { opcode := 100, mnemonic := "LOAD_CONST", operand := .constant, flow := .sequential,
      stack := .fixed 1 },
   { opcode := 101, mnemonic := "LOAD_NAME", operand := .name, flow := .sequential,
      stack := .fixed 1 },
   { opcode := 102, mnemonic := "BUILD_TUPLE", operand := .immediate, flow := .sequential,
      stack := .linear 1 (-1) },
   { opcode := 105, mnemonic := "BUILD_MAP", operand := .immediate, flow := .sequential,
      stack := .linear 1 (-2) },
   { opcode := 107, mnemonic := "COMPARE_OP", operand := .immediate, flow := .sequential,
      stack := .fixed (-1) },
   { opcode := 110, mnemonic := "JUMP_FORWARD", operand := .relativeJump,
      flow := .unconditional, stack := .fixed 0 },
   { opcode := 113, mnemonic := "JUMP_ABSOLUTE", operand := .absoluteJump,
      flow := .unconditional, stack := .fixed 0 },
   { opcode := 114, mnemonic := "POP_JUMP_IF_FALSE", operand := .absoluteJump,
      flow := .conditional, stack := .fixed (-1) },
   { opcode := 115, mnemonic := "POP_JUMP_IF_TRUE", operand := .absoluteJump,
      flow := .conditional, stack := .fixed (-1) },
   { opcode := 116, mnemonic := "LOAD_GLOBAL", operand := .name, flow := .sequential,
      stack := .fixed 1 },
   { opcode := 124, mnemonic := "LOAD_FAST", operand := .localName, flow := .sequential,
      stack := .fixed 1 },
   { opcode := 125, mnemonic := "STORE_FAST", operand := .localName, flow := .sequential,
      stack := .fixed (-1) },
   { opcode := 131, mnemonic := "CALL_FUNCTION", operand := .immediate, flow := .sequential,
      stack := .linear 0 (-1) },
   { opcode := 135, mnemonic := "LOAD_CLOSURE", operand := .closure, flow := .sequential,
      stack := .fixed 1 },
   { opcode := 136, mnemonic := "LOAD_DEREF", operand := .closure, flow := .sequential,
      stack := .fixed 1 },
   { opcode := 137, mnemonic := "STORE_DEREF", operand := .closure, flow := .sequential,
      stack := .fixed (-1) }]

/-- The small machine. -/
def small : InstructionSet where
  extension := smallExtension
  definitions := smallDefinitions
  ascending := by decide
  mnemonics_nodup := by decide
  extension_free := by decide

end InstructionSet
end StackCode
