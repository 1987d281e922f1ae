import StackCode.Text.Quoted
import StackCode.Text.Outline
import StackCode.Decimal.Style

/-!
Constants of a code unit.  Two constants are the same when they have the same kind and the same
value; floating point numbers are held by their bits, so that both zeros and all payloads of
not-a-number are told apart.
-/

namespace StackCode

/-- A value of the constant pool. -/
inductive Constant where
  | none
  | bool (value : Bool)
  | int (value : Int64)
  | float (bits : UInt64)
  | text (value : String)
  | bytes (value : List UInt8)
  | tuple (items : List Constant)
  /-- A value that only the embedding program can interpret, known by a handle. -/
  | object (handle : String)
  deriving Inhabited

namespace Constant

mutual

/-- Constants are compared by kind and value. -/
def same : Constant → Constant → Bool
  | .none, .none => true
  | .bool a, .bool b => a == b
  | .int a, .int b => a == b
  | .float a, .float b => a == b
  | .text a, .text b => a == b
  | .bytes a, .bytes b => a == b
  | .tuple a, .tuple b => sameItems a b
  | .object a, .object b => a == b
  | _, _ => false

def sameItems : List Constant → List Constant → Bool
  | [], [] => true
  | a :: as, b :: bs => same a b && sameItems as bs
  | _, _ => false

end

mutual

theorem same_iff : ∀ a b : Constant, same a b = true ↔ a = b
  | .none, b => by cases b <;> simp [same]
  | .bool _, b => by cases b <;> simp [same]
  | .int _, b => by cases b <;> simp [same]
  | .float _, b => by cases b <;> simp [same]
  | .text _, b => by cases b <;> simp [same]
  | .bytes _, b => by cases b <;> simp [same]
  | .tuple as, b => by cases b <;> simp [same, sameItems_iff as]
  | .object _, b => by cases b <;> simp [same]

theorem sameItems_iff : ∀ as bs : List Constant, sameItems as bs = true ↔ as = bs
  | [], bs => by cases bs <;> simp [sameItems]
  | a :: as, bs => by cases bs <;> simp [sameItems, same_iff a, sameItems_iff as]

end

instance : DecidableEq Constant := fun a b => decidable_of_iff _ (same_iff a b)

/-- Floating point constants are positional from `1e-4` up to below `1e16`. -/
def floatStyle : Decimal.Style :=
  { lowest := -4, highest := 15, whole := ".0", mark := "e", nan := "NaN", infinity := "inf" }

mutual

/-- The constant as it is shown in messages. -/
def outline : Constant → String
  | .none => "None"
  | .bool value => Text.call "Bool" [Text.bool value]
  | .int value => Text.call "Int" [toString value.toInt]
  | .float bits => Text.call "Float" [floatStyle.double bits]
  | .text value => Text.call "Str" [Text.quoteString value]
  | .bytes value => Text.call "Bytes" [Text.list (value.map fun b => toString b.toNat)]
  | .tuple items => Text.call "Tuple" [Text.list (outlines items)]
  | .object handle => Text.call "Object" [Text.quoteString handle]

def outlines : List Constant → List String
  | [] => []
  | item :: rest => outline item :: outlines rest

end

end Constant
end StackCode
