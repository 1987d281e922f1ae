import Mathlib.Tactic.Ring
import StackCode.Bytecode.Decoded

/-!
Reading back one encoded instruction.  Extension units carry the high bytes of an argument, the
most significant first, so that folding them gives the argument again, however many of them are
zero.
-/

namespace StackCode

namespace Encoding

/-- An argument that needs `count` extension units fits them and its low byte. -/
theorem lt_of_extensionCount_le {argument count : Nat} (word : argument < 0x100000000)
    (h : extensionCount argument ≤ count) : argument < 256 ^ (count + 1) := by
  rw [extensionCount] at h
  have grow : 256 ^ (extensionCount argument + 1) ≤ 256 ^ (count + 1) :=
    Nat.pow_le_pow_right (by decide) (by rw [extensionCount]; omega)
  refine Nat.lt_of_lt_of_le ?_ grow
  rw [extensionCount]
  split
  · omega
  · split
    · omega
    · split <;> omega

end Encoding

namespace Decoded

open Encoding

theorem toNat_ofNat_byte (value : Nat) : (UInt8.ofNat value).toNat = value % 256 := by
  simp [UInt8.toNat_ofNat']

/-- Extension units read behind `high` put the bytes they carry behind it. -/
theorem Group.read_extensions (extension : UInt8) (unit argument : Nat) (rest : List UInt8) :
    ∀ (count seen high : Nat), seen + count ≤ maxExtensions →
      Group.read extension unit seen high (extensions extension argument count ++ rest) =
        Group.read extension unit (seen + count) (high * 256 ^ count + argument / 256 % 256 ^ count)
          rest := by
  intro count
  induction count with
  | zero =>
    intro seen high _
    simp [extensions, Nat.mod_one]
  | succ count ih =>
    intro seen high hseen
    have hroom : seen ≠ maxExtensions := by omega
    rw [extensions, List.cons_append, List.cons_append, Group.read, if_pos rfl, if_neg hroom,
      ih (seen + 1) _ (by omega), toNat_ofNat_byte]
    have hunit : seen + 1 + count = seen + (count + 1) := by omega
    have hbytes : (high * 256 + argument / Nat.pow 256 (count + 1) % 256) * 256 ^ count +
        argument / 256 % 256 ^ count =
        high * 256 ^ (count + 1) + argument / 256 % 256 ^ (count + 1) := by
      have hdiv : argument / Nat.pow 256 (count + 1) = argument / 256 / 256 ^ count := by
        rw [Nat.pow_eq, Nat.pow_succ, Nat.mul_comm, Nat.div_div_eq_div_mul]
      rw [hdiv, Nat.mod_pow_succ, Nat.pow_succ]
      ring
    rw [hunit, hbytes]

/-- An instruction with enough extension units for its argument is read back as it was. -/
theorem Group.read_instruction {extension opcode : UInt8} {argument count : Nat}
    (hopcode : opcode ≠ extension) (hcount : count ≤ maxExtensions)
    (hargument : argument < 256 ^ (count + 1)) (unit : Nat) (rest : List UInt8) :
    Group.read extension unit 0 0 (instruction extension opcode argument count ++ rest) =
      .ok ({ size := count + 1, opcode, argument }, rest) := by
  have hhigh : argument / 256 % 256 ^ count = argument / 256 := by
    refine Nat.mod_eq_of_lt (Nat.div_lt_of_lt_mul ?_)
    rw [Nat.mul_comm, ← Nat.pow_succ]
    exact hargument
  rw [instruction, List.append_assoc,
    Group.read_extensions extension unit argument _ count 0 0 (by omega)]
  show Group.read extension unit (0 + count) _ (opcode :: .ofNat argument :: rest) = _
  rw [Group.read, if_neg hopcode, toNat_ofNat_byte, hhigh]
  have hfold : (0 * 256 ^ count + argument / 256) * 256 + argument % 256 = argument := by omega
  rw [hfold, Nat.zero_add]

/-- A group has at most three extension units in front of a unit with another opcode, and its
argument fits the bytes of its units. -/
theorem Group.read_eq_ok {extension : UInt8} {unit seen high : Nat} {bytes : List UInt8}
    {group : Group} {rest : List UInt8} (hseen : seen ≤ maxExtensions)
    (h : Group.read extension unit seen high bytes = .ok (group, rest)) :
    seen < group.size ∧ group.size ≤ maxExtensions + 1 ∧ group.opcode ≠ extension ∧
      (high < 256 ^ seen → group.argument < 256 ^ group.size) ∧
      bytes.length = 2 * (group.size - seen) + rest.length := by
  fun_induction Group.read extension unit seen high bytes with
  | case1 => cases h
  | case2 seen high low tail argument hroom ih =>
    obtain ⟨hsize, hmax, hopcode, hfits, hlength⟩ := ih (by omega) h
    refine ⟨by omega, hmax, hopcode, fun hhigh => hfits ?_, ?_⟩
    · have hlow : low.toNat < 256 := low.toNat_lt
      rw [Nat.pow_succ]
      omega
    · simp only [List.length_cons, hlength]
      omega
  | case3 seen high opcode low tail argument hopcode =>
    cases h
    refine ⟨by simp, by simpa using hseen, hopcode, fun hhigh => ?_, ?_⟩
    · have hlow : low.toNat < 256 := low.toNat_lt
      show high * 256 + low.toNat < 256 ^ (seen + 1)
      rw [Nat.pow_succ]
      omega
    · simp only [List.length_cons]
      omega
  | case4 => cases h

end Decoded
end StackCode
