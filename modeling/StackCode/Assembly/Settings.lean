/-!
Settings of the assembler.
-/

namespace StackCode

structure AssemblySettings where
  /-- The most layout passes before giving up. -/
  passes : Nat
  /-- Refuse operands that do not fit their opcode. -/
  verify : Bool
  /-- Compute the stack height and raise the declared bound to it. -/
  measureStack : Bool
  deriving DecidableEq, Repr, Inhabited

namespace AssemblySettings

def default : AssemblySettings := { passes := 32, verify := true, measureStack := false }

/-- Also keeps the declared stack bound up to date, for code that was changed. -/
def strict : AssemblySettings := { passes := 32, verify := true, measureStack := true }

/-- Accepts raw table indices in place of symbols. -/
def lenient : AssemblySettings := { passes := 32, verify := false, measureStack := false }

end AssemblySettings
end StackCode
