/-!
Units: the two byte cells of encoded code, an opcode and the low byte of its argument.  Higher
bytes of an argument are carried by extension units in front, the most significant first.
-/

namespace StackCode
namespace Encoding

/-- The most extension units that an instruction has. -/
def maxExtensions : Nat := 3

/-- The number of extension units that `argument` needs. -/
def extensionCount (argument : Nat) : Nat :=
  if argument < 0x100 then 0
  else if argument < 0x10000 then 1
  else if argument < 0x1000000 then 2
  else 3

/-- The `count` extension units in front of the low byte of `argument`. -/
def extensions (extension : UInt8) (argument : Nat) : Nat → List UInt8
  | 0 => []
  | count + 1 =>
    extension :: .ofNat (argument / Nat.pow 256 (count + 1)) :: extensions extension argument count

/-- One instruction with exactly `count` extension units, of which leading ones may be zero. -/
def instruction (extension opcode : UInt8) (argument count : Nat) : List UInt8 :=
  extensions extension argument count ++ [opcode, .ofNat argument]

theorem extensionCount_le (argument : Nat) : extensionCount argument ≤ maxExtensions := by
  rw [extensionCount, maxExtensions]
  split
  · omega
  · split
    · omega
    · split <;> omega

theorem length_extensions (extension : UInt8) (argument count : Nat) :
    (extensions extension argument count).length = 2 * count := by
  induction count with
  | zero => rfl
  | succ count ih =>
    rw [extensions, List.length_cons, List.length_cons, ih]
    omega

/-- An instruction takes one unit more than it has extensions. -/
theorem length_instruction (extension opcode : UInt8) (argument count : Nat) :
    (instruction extension opcode argument count).length = 2 * (count + 1) := by
  rw [instruction, List.length_append, length_extensions]
  rfl

end Encoding
end StackCode
