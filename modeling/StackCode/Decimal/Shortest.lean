/-!
Shortest decimals.  A finite binary floating point number stands for every real that rounds to
it; `Binary.shortest` is the member of that interval with the fewest decimal digits, the
nearest one if there are several, and the larger one if two are equally near.
-/

namespace StackCode

/-- The decimal `digits * 10 ^ exponent`. -/
structure Decimal where
  digits : Nat
  exponent : Int
  deriving DecidableEq, Repr

namespace Decimal

/-- The positive number `mantissa * 2 ^ exponent`, with the interval of reals that round to it.
The lower neighbour is nearer by half when `narrowBelow` is set. -/
structure Binary where
  mantissa : Nat
  exponent : Int
  narrowBelow : Bool
  deriving DecidableEq, Repr

/-- The magnitude of a finite double, from its exponent and fraction fields. -/
def Binary.ofDouble (bits : UInt64) : Binary :=
  let field := (bits.toNat / 0x10000000000000) % 0x800
  let fraction := bits.toNat % 0x10000000000000
  if field = 0 then { mantissa := fraction, exponent := -1074, narrowBelow := false }
  else
    { mantissa := 0x10000000000000 + fraction
      exponent := Int.ofNat field - 1075
      narrowBelow := fraction = 0 && 1 < field }

/-- The fraction `(top, bottom)` with `top / bottom = n * 2 ^ two / 10 ^ ten`. -/
def scaled (n : Nat) (two ten : Int) : Nat × Nat :=
  (n * Nat.pow 2 two.toNat * Nat.pow 10 (-ten).toNat,
    Nat.pow 2 (-two).toNat * Nat.pow 10 ten.toNat)

/-- The multiple of `10 ^ place` that is nearest to `x` among those that round to `x`, in units
of `10 ^ place`. -/
def Binary.onGrid? (x : Binary) (place : Int) : Option Nat :=
  let (value, one) := scaled (4 * x.mantissa) (x.exponent - 2) place
  let (low, _) :=
    scaled (4 * x.mantissa - if x.narrowBelow then 1 else 2) (x.exponent - 2) place
  let (high, _) := scaled (4 * x.mantissa + 2) (x.exponent - 2) place
  let rounds (n : Nat) : Bool :=
    if x.mantissa % 2 = 0 then low ≤ n * one && n * one ≤ high
    else low < n * one && n * one < high
  let below := value / one
  let above := below + 1
  match rounds below, rounds above with
  | true, true => if value - below * one < above * one - value then some below else some above
  | true, false => some below
  | false, true => some above
  | false, false => none

/-- The first grid with a point that rounds to `x`, from `place` downwards. -/
def Binary.firstGrid (x : Binary) : Nat → Int → Decimal
  | 0, place => { digits := (x.onGrid? place).getD 0, exponent := place }
  | fuel + 1, place =>
    match x.onGrid? place with
    | some digits => { digits, exponent := place }
    | none => x.firstGrid fuel (place - 1)

/-- A power of ten above `x`. -/
def Binary.above (x : Binary) : Int :=
  ((Nat.log2 x.mantissa : Int) + x.exponent + 1) * 30103 / 100000 + 1

/-- The decimal with the fewest digits that rounds to `x`. -/
def Binary.shortest (x : Binary) : Decimal := x.firstGrid 20 x.above

end Decimal
end StackCode
