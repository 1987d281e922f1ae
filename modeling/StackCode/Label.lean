import StackCode.Text.Outline

/-!
Labels: positions inside a block graph, as a block and an instruction within it.
-/

namespace StackCode

/-- The instruction `index` of block `block`.  The trailing jump of a block counts as the
instruction after its body, and the end of a block as the instruction after that. -/
structure Label where
  block : Nat
  index : Nat
  deriving DecidableEq, Repr, Inhabited

namespace Label

/-- The first instruction of `block`. -/
def start (block : Nat) : Label := { block, index := 0 }

def toText (label : Label) : String := s!"block {label.block}+{label.index}"

def outline (label : Label) : String :=
  Text.record "BlockTarget" [("block", toString label.block), ("offset", toString label.index)]

end Label
end StackCode
