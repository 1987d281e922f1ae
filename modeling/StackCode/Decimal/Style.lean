import StackCode.Decimal.Shortest

/-!
Written forms of doubles.  A `Style` says which magnitudes are written positionally and how the
others are marked.
-/

namespace StackCode
namespace Decimal

/-- The decisions of a written form.  A number `d.ddd * 10 ^ e` is positional when
`lowest ≤ e ≤ highest`, and otherwise scientific with `mark` in front of `e`. -/
structure Style where
  lowest : Int
  highest : Int
  /-- What a positional number without fraction ends in. -/
  whole : String
  mark : String
  nan : String
  infinity : String

/-- `digits` with a point after the first `places` of them. -/
def Style.positional (style : Style) (digits : List Char) (exponent : Int) : String :=
  if 0 ≤ exponent then
    String.ofList (digits ++ List.replicate exponent.toNat '0') ++ style.whole
  else
    let places := (-exponent).toNat
    if places < digits.length then
      String.ofList (digits.take (digits.length - places) ++ '.' ::
        digits.drop (digits.length - places))
    else
      String.ofList ('0' :: '.' :: List.replicate (places - digits.length) '0' ++ digits)

/-- One digit, the others after a point, and the exponent. -/
def Style.scientific (style : Style) (digits : List Char) (exponent : Int) : String :=
  let point := if 1 < digits.length then digits.take 1 ++ '.' :: digits.drop 1 else digits
  String.ofList point ++ style.mark ++ toString exponent

/-- The written form of a positive decimal. -/
def Style.decimal (style : Style) (x : Decimal) : String :=
  let digits := Nat.toDigits 10 x.digits
  let leading := x.exponent + digits.length - 1
  if style.lowest ≤ leading ∧ leading ≤ style.highest then style.positional digits x.exponent
  else style.scientific digits leading

/-- The written form of the double with the given bits.  A double that is not a number has no
sign. -/
def Style.double (style : Style) (bits : UInt64) : String :=
  let magnitude := bits.toNat % 0x8000000000000000
  let sign := if bits.toNat / 0x8000000000000000 = 1 then "-" else ""
  let infinite := 0x7ff0000000000000
  if infinite < magnitude then style.nan
  else if magnitude = infinite then sign ++ style.infinity
  else if magnitude = 0 then sign ++ "0" ++ style.whole
  else sign ++ style.decimal (Binary.ofDouble bits).shortest

end Decimal
end StackCode
