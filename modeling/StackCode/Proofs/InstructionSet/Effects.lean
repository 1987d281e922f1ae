import StackCode.Instruction.Basic
import StackCode.Proofs.Outcome

/-!
Stack effects in machine words.

The effect of an opcode is a number of 32 bits, and so are the base and the slope of an effect that
depends on the argument.  Product and sum are taken in 64 bits, which are just enough: the least sum
is the least number of 64 bits.
-/

namespace StackCode

/-- The value is a signed word of 64 bits. -/
def FitsInt64 (value : Int) : Prop := -0x8000000000000000 ≤ value ∧ value ≤ 0x7fffffffffffffff

instance (value : Int) : Decidable (FitsInt64 value) :=
  inferInstanceAs (Decidable (-0x8000000000000000 ≤ value ∧ value ≤ 0x7fffffffffffffff))

/-- A signed word of 32 bits is one of 64 bits. -/
theorem fitsInt64_of_bounds {value : Int} (h : -0x80000000 ≤ value ∧ value ≤ 0x7fffffff) :
    FitsInt64 value := by
  constructor <;> omega

theorem FitsInt64.bmod_eq {value : Int} (h : FitsInt64 value) : value.bmod Int64.size = value := by
  obtain ⟨hleast, hgreatest⟩ := h
  have hsize : Int64.size = 0x10000000000000000 := rfl
  exact Int.bmod_eq_of_le (by omega) (by omega)

/-- A sum of words does not wrap around if it is a word. -/
theorem FitsInt64.toInt_add {left right : Int64} (h : FitsInt64 (left.toInt + right.toInt)) :
    (left + right).toInt = left.toInt + right.toInt := by
  rw [Int64.toInt_add]
  exact h.bmod_eq

theorem FitsInt64.toInt_mul {left right : Int64} (h : FitsInt64 (left.toInt * right.toInt)) :
    (left * right).toInt = left.toInt * right.toInt := by
  rw [Int64.toInt_mul]
  exact h.bmod_eq

theorem FitsInt64.toInt_ofInt {value : Int} (h : FitsInt64 value) :
    (Int64.ofInt value).toInt = value := by
  rw [Int64.toInt_ofInt]
  exact h.bmod_eq

/-- A number and the sum with what is added to it are words of 64 bits, and the sum in words is the
exact one. -/
structure AddsInInt64 (left right : Int) : Prop where
  fits : FitsInt64 left
  fitsSum : FitsInt64 (left + right)
  exact : (Int64.ofInt left + Int64.ofInt right).toInt = left + right

theorem FitsInt64.adds {left right : Int} (hleft : FitsInt64 left) (hright : FitsInt64 right)
    (hsum : FitsInt64 (left + right)) : AddsInInt64 left right := by
  refine ⟨hleft, hsum, ?_⟩
  have hwords : FitsInt64 ((Int64.ofInt left).toInt + (Int64.ofInt right).toInt) := by
    rw [hleft.toInt_ofInt, hright.toInt_ofInt]
    exact hsum
  rw [hwords.toInt_add, hleft.toInt_ofInt, hright.toInt_ofInt]

namespace StackEffect

/-! ### The range of an effect -/

section Range

variable (base perArgument : Int32) (argument : UInt32)

theorem product_bounds :
    -0x80000000 * (argument.toNat : Int) ≤ perArgument.toInt * argument.toNat ∧
      perArgument.toInt * argument.toNat ≤ 0x7fffffff * (argument.toNat : Int) := by
  have hargument : (0 : Int) ≤ argument.toNat := Int.natCast_nonneg _
  have hleast : -0x80000000 ≤ perArgument.toInt := perArgument.le_toInt
  have hgreatest : perArgument.toInt ≤ 0x7fffffff := Int.le_of_lt_add_one perArgument.toInt_lt
  exact ⟨Int.mul_le_mul_of_nonneg_right hleast hargument,
    Int.mul_le_mul_of_nonneg_right hgreatest hargument⟩

theorem product_fits : FitsInt64 (perArgument.toInt * argument.toNat) := by
  obtain ⟨hleast, hgreatest⟩ := product_bounds perArgument argument
  have hargument : argument.toNat < 0x100000000 := argument.toNat_lt
  constructor <;> omega

theorem sum_fits : FitsInt64 (perArgument.toInt * argument.toNat + base.toInt) := by
  obtain ⟨hleast, hgreatest⟩ := product_bounds perArgument argument
  have hargument : argument.toNat < 0x100000000 := argument.toNat_lt
  have hbase : -0x80000000 ≤ base.toInt := base.le_toInt
  have hbase' : base.toInt ≤ 0x7fffffff := Int.le_of_lt_add_one base.toInt_lt
  constructor <;> omega

end Range

/-- The least sum is the least word, so that there is nothing to spare. -/
example :
    let least := Int32.minValue.toInt * (0xffffffff : UInt32).toNat + Int32.minValue.toInt
    FitsInt64 least ∧ ¬FitsInt64 (least - 1) := by decide

/-- An effect is a signed word of 32 bits. -/
theorem delta_bounds (effect : StackEffect) (argument : UInt32) :
    -0x80000000 ≤ effect.delta argument ∧ effect.delta argument ≤ 0x7fffffff := by
  cases effect with
  | fixed delta => exact ⟨delta.le_toInt, Int.le_of_lt_add_one delta.toInt_lt⟩
  | linear base perArgument =>
    rw [delta, clampToWord]
    omega

/-! ### The computation in words -/

/-- The change of height as it is computed: product and sum wrap around in 64 bits, and a sum that
does not fit 32 bits becomes the end of their range on its side. -/
def wordDelta : StackEffect → UInt32 → Int32
  | fixed delta, _ => delta
  | linear base perArgument, argument =>
    let scaled := perArgument.toInt64 * Int64.ofNat argument.toNat + base.toInt64
    if Int32.minValue.toInt64 ≤ scaled ∧ scaled ≤ Int32.maxValue.toInt64 then scaled.toInt32
    else if scaled < 0 then .minValue
    else .maxValue

theorem toInt_scaled (base perArgument : Int32) (argument : UInt32) :
    (perArgument.toInt64 * Int64.ofNat argument.toNat + base.toInt64).toInt =
      perArgument.toInt * argument.toNat + base.toInt := by
  have hargument : (Int64.ofNat argument.toNat).toInt = argument.toNat :=
    Int64.toInt_ofNat_of_lt (Nat.lt_trans argument.toNat_lt (by decide))
  have hproduct : FitsInt64 (perArgument.toInt64.toInt * (Int64.ofNat argument.toNat).toInt) := by
    rw [Int32.toInt_toInt64, hargument]
    exact product_fits perArgument argument
  have hsum : FitsInt64 ((perArgument.toInt64 * Int64.ofNat argument.toNat).toInt +
      base.toInt64.toInt) := by
    rw [hproduct.toInt_mul, Int32.toInt_toInt64, Int32.toInt_toInt64, hargument]
    exact sum_fits base perArgument argument
  rw [hsum.toInt_add, hproduct.toInt_mul, Int32.toInt_toInt64, Int32.toInt_toInt64, hargument]

/-- The computation in words gives the exact change of height. -/
theorem toInt_wordDelta (effect : StackEffect) (argument : UInt32) :
    (effect.wordDelta argument).toInt = effect.delta argument := by
  cases effect with
  | fixed delta => rfl
  | linear base perArgument =>
    have hscaled := toInt_scaled base perArgument argument
    have hmin : Int32.minValue.toInt64.toInt = -0x80000000 := rfl
    have hmax : Int32.maxValue.toInt64.toInt = 0x7fffffff := rfl
    rw [wordDelta, delta, clampToWord]
    simp only [Int64.le_iff_toInt_le, Int64.lt_iff_toInt_lt, hscaled, hmin, hmax, Int64.toInt_zero]
    split
    · rw [Int64.toInt_toInt32, hscaled, Int.bmod_eq_of_le (by omega) (by omega)]
      omega
    · split
      · rw [Int32.toInt_minValue]
        omega
      · rw [Int32.toInt_maxValue]
        omega

end StackEffect

/-- The effect of an instruction is a signed word of 32 bits. -/
theorem Instruction.stackEffect_bounds {isa : InstructionSet} {instruction : Instruction}
    {effect : Int} (h : instruction.stackEffect isa = .ok effect) :
    -0x80000000 ≤ effect ∧ effect ≤ 0x7fffffff := by
  obtain ⟨definition, -, rfl⟩ := Outcome.map_eq_ok.mp h
  exact definition.stack.delta_bounds _

end StackCode
